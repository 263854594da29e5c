import Zfs.SpaceMap.Layout

/-!
# SpaceMap/Iterate — both readers of a laid-out space map

On a map laid out as the items `its` (`SmLayout`), the two readers are the callback protocol
`smCallbacks` over the entries `sm.entries its`:

* `spaceMapIterate_layout` — `space_map_iterate` over the whole map calls the callback on the
  entries in order;
* `spaceMapIncrementalDestroy_layout` — `space_map_incremental_destroy` calls it on the same
  entries in reverse order, and leaves the words through the last entry it did not finish
  (`wordsThrough`) and `smp_alloc` less the `smAllocDelta` of the entries it finished.

Both go block by block: a block boundary falls between items (`Blocked.boundary`), one block is
the protocol over its items (`iterateBlock_items`, `incrementalDestroyBlock_items`), and the
block loops are inductions over the blocks left (`iterateLoop_items`,
`incrementalDestroyLoop_items`).  The reversal of the last block keeps each two-word entry in
order (`reversedEntries_items`).
-/

namespace Zfs

namespace SpaceMap

variable {σ : Type} (sm : SpaceMap) (cb : σ → SpaceMapEntry → σ × Int32)

/-! ## Blocks and words -/

theorem blksz_eq : sm.smBlksz = 8 * sm.blockWords :=
  (Nat.mul_div_cancel' sm.blksz_dvd).symm

theorem two_le_blockWords : 2 ≤ sm.blockWords := by
  have := sm.two_words_le
  have := sm.blksz_eq
  omega

@[simp] theorem length_readWords (i n : ℕ) : (sm.readWords i n).length = n := by
  simp [readWords]

theorem readWords_add (i m n : ℕ) :
    sm.readWords i (m + n) = sm.readWords i m ++ sm.readWords (i + m) n := by
  rw [readWords, readWords, readWords, ← List.range'_append_1, List.map_append]

/-- The words of items laid from `m` on split between any two items. -/
theorem readWords_split {m : ℕ} {A B : List SmItem}
    (h : sm.readWords m ((A ++ B).flatMap SmItem.words).length = (A ++ B).flatMap SmItem.words) :
    sm.readWords m (A.flatMap SmItem.words).length = A.flatMap SmItem.words ∧
      sm.readWords (m + (A.flatMap SmItem.words).length) (B.flatMap SmItem.words).length =
        B.flatMap SmItem.words := by
  rw [List.flatMap_append, List.length_append, readWords_add] at h
  exact List.append_inj h (by simp)

/-- Enough blocks for `n` words: `DIV_ROUND_UP` of the bytes. -/
theorem le_blocks_mul (n : ℕ) :
    n ≤ (8 * n + sm.smBlksz - 1) / sm.smBlksz * sm.blockWords := by
  have hW := sm.two_le_blockWords
  have hbs := sm.blksz_eq
  have hd := Nat.div_add_mod (8 * n + sm.smBlksz - 1) sm.smBlksz
  have hm := Nat.mod_lt (8 * n + sm.smBlksz - 1) (show 0 < sm.smBlksz by omega)
  have hq : sm.smBlksz * ((8 * n + sm.smBlksz - 1) / sm.smBlksz) =
      8 * ((8 * n + sm.smBlksz - 1) / sm.smBlksz * sm.blockWords) := by
    rw [hbs, Nat.mul_assoc, Nat.mul_comm sm.blockWords]
  omega

/-- The last block of a map of `n` words starts at the last multiple of `W` below `n`. -/
theorem lastBlock_start (n W : ℕ) :
    (8 * n - 8) / (8 * W) * (8 * W) = 8 * ((n - 1) / W * W) := by
  rw [show 8 * n - 8 = 8 * (n - 1) by omega, Nat.mul_div_mul_left _ _ (by norm_num : 0 < 8),
    Nat.mul_left_comm]

/-- The entries and checks of a map depend only on where it lies. -/
@[simp] theorem entryAligned_with (len : ℕ) (alloc : ℤ) (e : SpaceMapEntry) :
    ({ sm with smpLength := len, smpAlloc := alloc } : SpaceMap).entryAligned e =
      sm.entryAligned e := rfl

@[simp] theorem entryInRange_with (len : ℕ) (alloc : ℤ) (e : SpaceMapEntry) :
    ({ sm with smpLength := len, smpAlloc := alloc } : SpaceMap).entryInRange e =
      sm.entryInRange e := rfl

/-! ## `space_map_iterate` -/

/-- A debug word in a block of `space_map_iterate` is skipped. -/
theorem iterateBlock_debug (pastEnd : UInt64) {w : UInt64} (hw : smEntryIsDebug w = true)
    (rest : List UInt64) (a : σ) :
    sm.iterateBlock cb pastEnd (w :: rest) a = sm.iterateBlock cb pastEnd rest a := by
  cases rest <;> simp only [iterateBlock, hw, if_true]

/-- One entry item in a block of `space_map_iterate`. -/
theorem iterateBlock_entry (pastEnd : UInt64) {it : SmItem} {e : SpaceMapEntry}
    (hk : it.WellKinded) (he : sm.itemEntry it = some e) (rest : List UInt64) (a : σ) :
    sm.iterateBlock cb pastEnd (it.words ++ rest) a =
      sm.iterateVisit cb e a (sm.iterateBlock cb pastEnd rest) := by
  cases it with
  | debug w => cases he
  | single w =>
    simp only [itemEntry, Option.some.injEq] at he
    subst he
    have hs : smEntryIsSingleWord w = true := hk
    have hd := smEntryIsDebug_of_single hs
    cases rest <;>
      simp only [SmItem.words, List.singleton_append, iterateBlock, hd.1, hs, if_true,
        Bool.false_eq_true, if_false]
  | double w₁ w₂ =>
    simp only [itemEntry, Option.some.injEq] at he
    subst he
    have hd := smEntryIsDebug_of_double hk
    simp only [SmItem.words, List.cons_append, List.nil_append, iterateBlock, hd.1, hd.2,
      Bool.false_eq_true, if_false]

/-- **One block of `space_map_iterate`** is the callback protocol over the entries of its
items. -/
theorem iterateBlock_items (pastEnd : UInt64) : ∀ (its : List SmItem) (a : σ),
    (∀ it ∈ its, it.WellKinded) → (∀ e ∈ sm.entries its, sm.entryAligned e = true) →
    sm.iterateBlock cb pastEnd (its.flatMap SmItem.words) a =
      some ((smCallbacks cb a (sm.entries its)).1, (smCallbacks cb a (sm.entries its)).2.1)
  | [], _, _, _ => rfl
  | .debug w :: its, a, hk, ha => by
    have hw : smEntryIsDebug w = true := hk _ List.mem_cons_self
    rw [List.flatMap_cons, SmItem.words, List.singleton_append, iterateBlock_debug sm cb pastEnd hw]
    exact iterateBlock_items pastEnd its a (fun it h => hk it (List.mem_cons_of_mem _ h)) ha
  | .single w :: its, a, hk, ha => by
    rw [List.flatMap_cons, iterateBlock_entry sm cb pastEnd (hk _ List.mem_cons_self) rfl,
      entries_single, smCallbacks_cons, iterateVisit, if_pos (ha _ List.mem_cons_self)]
    split_ifs
    · exact iterateBlock_items pastEnd its _ (fun it h => hk it (List.mem_cons_of_mem _ h))
        (fun e he => ha e (List.mem_cons_of_mem _ he))
    · rfl
  | .double w₁ w₂ :: its, a, hk, ha => by
    rw [List.flatMap_cons, iterateBlock_entry sm cb pastEnd (hk _ List.mem_cons_self) rfl,
      entries_double, smCallbacks_cons, iterateVisit, if_pos (ha _ List.mem_cons_self)]
    split_ifs
    · exact iterateBlock_items pastEnd its _ (fun it h => hk it (List.mem_cons_of_mem _ h))
        (fun e he => ha e (List.mem_cons_of_mem _ he))
    · rfl

theorem iterateLoop_done {endB base : ℕ} (h : endB ≤ base) (k : ℕ) (a : σ) :
    sm.iterateLoop cb endB k base a = some (a, 0) := by
  cases k <;> simp [iterateLoop, Nat.not_lt.mpr h]

/-- **The block loop of `space_map_iterate`**: from a block boundary `m`, over the items `B`
laid from `m` to the end of the map, the loop is the callback protocol over their entries.
The induction is on the blocks left; each turn takes the items of one block off the front. -/
theorem iterateLoop_items : ∀ (k m : ℕ) (B : List SmItem) (a : σ),
    sm.readWords m (B.flatMap SmItem.words).length = B.flatMap SmItem.words →
    Blocked sm.blockWords m B → (∀ it ∈ B, it.WellKinded) →
    (∀ e ∈ sm.entries B, sm.entryAligned e = true) → sm.blockWords ∣ m →
    (B.flatMap SmItem.words).length ≤ k * sm.blockWords →
    sm.iterateLoop cb (8 * (m + (B.flatMap SmItem.words).length)) k (8 * m) a =
      some ((smCallbacks cb a (sm.entries B)).1, (smCallbacks cb a (sm.entries B)).2.1)
  | 0, m, B, a, _, _, _, _, _, hk => by
    obtain rfl : B = [] := eq_nil_of_flatMap_words (by simpa using hk)
    rfl
  | k + 1, m, B, a, hw, hb, hkind, ha, hdvd, hfuel => by
    have hW := sm.two_le_blockWords
    have hbs := sm.blksz_eq
    rcases Nat.eq_zero_or_pos (B.flatMap SmItem.words).length with hn | hn
    · obtain rfl : B = [] := eq_nil_of_flatMap_words hn
      exact iterateLoop_done sm cb (by simp) _ _
    -- the first block holds `min n W` words: cut `B` there
    obtain ⟨B₁, B₂, rfl, hj⟩ : ∃ B₁ B₂, B = B₁ ++ B₂ ∧
        (B₁.flatMap SmItem.words).length = min (B.flatMap SmItem.words).length sm.blockWords := by
      rcases le_or_gt (B.flatMap SmItem.words).length sm.blockWords with hle | hlt
      · exact ⟨B, [], by simp, (Nat.min_eq_left hle).symm⟩
      · obtain ⟨j, hj⟩ := hb.boundary (q := m + sm.blockWords) (by omega) (by omega)
          (Nat.dvd_add hdvd (dvd_refl _))
        exact ⟨B.take j, B.drop j, (List.take_append_drop j B).symm,
          by rw [Nat.min_eq_right hlt.le]; omega⟩
    have hlen : ((B₁ ++ B₂).flatMap SmItem.words).length =
        (B₁.flatMap SmItem.words).length + (B₂.flatMap SmItem.words).length := by simp
    have hwords := sm.readWords_split hw
    have hblocked := (blocked_append m B₁ B₂).mp hb
    have hkind₂ : ∀ it ∈ B₂, it.WellKinded := fun it h => hkind it (List.mem_append_right _ h)
    have ha₁ : ∀ e ∈ sm.entries B₁, sm.entryAligned e = true :=
      fun e he => ha e (by simp [he])
    have ha₂ : ∀ e ∈ sm.entries B₂, sm.entryAligned e = true :=
      fun e he => ha e (by simp [he])
    have hmin : min (8 * (m + ((B₁ ++ B₂).flatMap SmItem.words).length) - 8 * m) sm.smBlksz =
        8 * (B₁.flatMap SmItem.words).length := by
      rw [hj, hbs]; omega
    rw [iterateLoop, if_pos (by omega), hmin, if_pos (by omega), Nat.mul_div_cancel_left _ (by omega),
      Nat.mul_div_cancel_left _ (by omega), hwords.1,
      iterateBlock_items sm cb _ _ a (fun it h => hkind it (List.mem_append_left _ h)) ha₁,
      entries_append, smCallbacks_append]
    simp only
    split_ifs with h0
    · rcases le_or_gt ((B₁ ++ B₂).flatMap SmItem.words).length sm.blockWords with hle | hlt
      · -- that block was the last one
        obtain rfl : B₂ = [] := eq_nil_of_flatMap_words (by omega)
        rw [iterateLoop_done sm cb (by omega)]
        simp
      · rw [Nat.min_eq_right hlt.le] at hj
        have hnext := iterateLoop_items k (m + sm.blockWords) B₂
          (smCallbacks cb a (sm.entries B₁)).1 (by have := hwords.2; rwa [hj] at this)
          (by have := hblocked.2; rwa [hj] at this) hkind₂ ha₂ (Nat.dvd_add hdvd (dvd_refl _))
          (by rw [Nat.add_mul, Nat.one_mul] at hfuel; omega)
        rw [show 8 * (m + ((B₁ ++ B₂).flatMap SmItem.words).length) =
            8 * (m + sm.blockWords + (B₂.flatMap SmItem.words).length) by omega,
          show 8 * m + sm.smBlksz = 8 * (m + sm.blockWords) by omega, hnext]
    · rfl

/-- **`space_map_iterate` over the whole map** calls the callback on the entries in order. -/
theorem spaceMapIterate_layout {its : List SmItem} (hl : SmLayout sm its) (a : σ) :
    sm.spaceMapIterate sm.smpLength cb a =
      some ((smCallbacks cb a (sm.entries its)).1, (smCallbacks cb a (sm.entries its)).2.1) := by
  have hn : sm.smpLength / 8 = (its.flatMap SmItem.words).length := by rw [hl.length]; omega
  have hfuel := sm.le_blocks_mul (its.flatMap SmItem.words).length
  rw [← hl.length] at hfuel
  have := sm.iterateLoop_items cb _ 0 its a (by rw [← hn, hl.words]) hl.blocked hl.kinded
    (fun e he => (hl.checked e he).1) (dvd_zero _) hfuel
  rw [Nat.zero_add, ← hl.length, Nat.mul_zero] at this
  exact this

/-! ## `space_map_incremental_destroy` -/

theorem reversedEntries_cons {e : UInt64} (h : smEntryIsDoubleWord e = false)
    (rest : List UInt64) :
    reversedEntries (e :: rest) = (reversedEntries rest).map (· ++ [e]) := by
  cases rest <;> simp only [reversedEntries, h, Bool.false_eq_true, if_false]

/-- **The reversal of the last block** turns whole items around and keeps the two words of
each two-word entry in order. -/
theorem reversedEntries_items : ∀ its : List SmItem, (∀ it ∈ its, it.WellKinded) →
    reversedEntries (its.flatMap SmItem.words) = some (its.reverse.flatMap SmItem.words)
  | [], _ => rfl
  | .debug w :: its, hk => by
    have hw := smEntryIsDoubleWord_of_debug (hk _ List.mem_cons_self)
    rw [List.flatMap_cons, SmItem.words, List.singleton_append, reversedEntries_cons hw,
      reversedEntries_items its (fun it h => hk it (List.mem_cons_of_mem _ h))]
    simp [SmItem.words]
  | .single w :: its, hk => by
    have hw := (smEntryIsDebug_of_single (hk _ List.mem_cons_self)).2
    rw [List.flatMap_cons, SmItem.words, List.singleton_append, reversedEntries_cons hw,
      reversedEntries_items its (fun it h => hk it (List.mem_cons_of_mem _ h))]
    simp [SmItem.words]
  | .double w₁ w₂ :: its, hk => by
    have hw : smEntryIsDoubleWord w₁ = true := hk _ List.mem_cons_self
    simp only [List.flatMap_cons, SmItem.words, List.cons_append, List.nil_append, reversedEntries,
      hw, if_true, reversedEntries_items its (fun it h => hk it (List.mem_cons_of_mem _ h))]
    simp [SmItem.words]

end SpaceMap

section Destroy

variable {σ : Type} (cb : σ → SpaceMapEntry → σ × Int32)

/-- A debug word in the buffer of `space_map_incremental_destroy` takes a word off
`smp_length`. -/
theorem incrementalDestroyBlock_debug (sm : SpaceMap) {w : UInt64} (hw : smEntryIsDebug w = true)
    (rest : List UInt64) (a : σ) :
    incrementalDestroyBlock cb (w :: rest) sm a =
      incrementalDestroyBlock cb rest { sm with smpLength := sm.smpLength - 8 } a := by
  cases rest <;> simp only [incrementalDestroyBlock, hw, if_true]

/-- One entry item in the buffer of `space_map_incremental_destroy`. -/
theorem incrementalDestroyBlock_entry (sm : SpaceMap) {it : SmItem} {e : SpaceMapEntry}
    (hk : it.WellKinded) (he : sm.itemEntry it = some e) (rest : List UInt64) (a : σ) :
    incrementalDestroyBlock cb (it.words ++ rest) sm a =
      sm.destroyVisit cb e it.size a (incrementalDestroyBlock cb rest) := by
  cases it with
  | debug w => cases he
  | single w =>
    simp only [SpaceMap.itemEntry, Option.some.injEq] at he
    subst he
    have hs : smEntryIsSingleWord w = true := hk
    have hd := smEntryIsDebug_of_single hs
    cases rest <;>
      simp only [SmItem.words, List.singleton_append, incrementalDestroyBlock, hd.1, hs, if_true,
        Bool.false_eq_true, if_false, SmItem.size_single]
  | double w₁ w₂ =>
    simp only [SpaceMap.itemEntry, Option.some.injEq] at he
    subst he
    have hd := smEntryIsDebug_of_double hk
    simp only [SmItem.words, List.cons_append, List.nil_append, incrementalDestroyBlock, hd.1, hd.2,
      Bool.false_eq_true, if_false, SmItem.size_double]

/-- A checked entry in `space_map_incremental_destroy`. -/
theorem destroyVisit_of_checked (sm : SpaceMap) {e : SpaceMapEntry}
    (h : sm.entryAligned e = true ∧ sm.entryInRange e = true) (words : ℕ) (a : σ)
    (k : SpaceMap → σ → Option (σ × Int32 × SpaceMap)) :
    sm.destroyVisit cb e words a k =
      if (cb a e).2 = 0 then
        k { sm with
            smpAlloc := if e.smeType = .smAlloc then sm.smpAlloc - e.smeRun.toNat
              else sm.smpAlloc + e.smeRun.toNat
            smpLength := sm.smpLength - words * 8 } (cb a e).1
      else some ((cb a e).1, (cb a e).2, sm) := by
  rw [SpaceMap.destroyVisit, if_pos (by simp [h.1, h.2])]

/-- **One block of `space_map_incremental_destroy`**: the buffer of the items `B`, reversed,
is the callback protocol over their entries from the last; it leaves the words through the last
entry not finished (after `c` words before the block) and takes the finished entries off
`smp_alloc`.  The induction adds the items of `B` one at a time at its end, which is where the
buffer starts. -/
theorem incrementalDestroyBlock_items (c : ℕ) (B : List SmItem) : ∀ (sm : SpaceMap) (a : σ),
    sm.smpLength = 8 * (c + (B.flatMap SmItem.words).length) → (∀ it ∈ B, it.WellKinded) →
    (∀ e ∈ sm.entries B, sm.entryAligned e = true ∧ sm.entryInRange e = true) →
    incrementalDestroyBlock cb (B.reverse.flatMap SmItem.words) sm a =
      some ((smCallbacks cb a (sm.entries B).reverse).1,
        (smCallbacks cb a (sm.entries B).reverse).2.1,
        { sm with
          smpLength := 8 * (c + wordsThrough B ((sm.entries B).length -
            (smCallbacks cb a (sm.entries B).reverse).2.2))
          smpAlloc := sm.smpAlloc - smAllocDelta ((sm.entries B).drop ((sm.entries B).length -
            (smCallbacks cb a (sm.entries B).reverse).2.2)) }) := by
  induction B using List.reverseRecOn with
  | nil =>
    intro sm a hlen _ _
    simp only [List.flatMap_nil, List.length_nil, Nat.add_zero] at hlen
    simp [incrementalDestroyBlock, ← hlen]
  | append_singleton B it ih =>
    intro sm a hlen hk hc
    have hkit : it.WellKinded := hk it (by simp)
    have hkB : ∀ x ∈ B, x.WellKinded := fun x hx => hk x (List.mem_append_left _ hx)
    have hcB : ∀ e ∈ sm.entries B, sm.entryAligned e = true ∧ sm.entryInRange e = true :=
      fun e he => hc e (by simp [he])
    have hcount := sm.length_entries B
    have hsize : ((B ++ [it]).flatMap SmItem.words).length =
        (B.flatMap SmItem.words).length + it.size := by simp
    rw [List.reverse_append, List.reverse_singleton, List.singleton_append, List.flatMap_cons]
    cases hit : it.isEntry
    · -- a debug word: `smp_length` loses a word and the entries are those of `B`
      obtain ⟨w, rfl⟩ : ∃ w, it = .debug w := by cases it <;> simp_all [SmItem.isEntry]
      have hw : smEntryIsDebug w = true := hkit
      rw [SmItem.words, List.singleton_append, incrementalDestroyBlock_debug cb sm hw,
        ih { sm with smpLength := sm.smpLength - 8 } a
          (by show sm.smpLength - 8 = _; rw [hlen, hsize, SmItem.size_debug]; omega) hkB hcB]
      have hE : sm.entries (B ++ [.debug w]) = sm.entries B := by simp
      have hle := smCallbacks_done_le cb a (sm.entries B).reverse
      simp only [SpaceMap.entries_with, hE, List.length_reverse] at hle ⊢
      rw [wordsThrough_append_of_le B _ _ (by omega)]
    · -- an entry: the callback decides whether the block goes on
      obtain ⟨e, he⟩ : ∃ e, sm.itemEntry it = some e := by
        cases it <;> simp_all [SmItem.isEntry, SpaceMap.itemEntry]
      have hE : sm.entries (B ++ [it]) = sm.entries B ++ [e] := by
        simp [SpaceMap.entries, he]
      have hce : sm.entryAligned e = true ∧ sm.entryInRange e = true := hc e (by simp [hE])
      rw [incrementalDestroyBlock_entry cb sm hkit he, destroyVisit_of_checked cb sm hce, hE,
        List.reverse_append, List.reverse_singleton, List.singleton_append, smCallbacks_cons]
      by_cases h0 : (cb a e).2 = 0
      · rw [if_pos h0, if_pos h0, ih _ _ ?hlen hkB ?hc]
        case hlen =>
          show sm.smpLength - it.size * 8 = _
          rw [hlen, hsize]
          omega
        case hc => exact hcB
        have hle := smCallbacks_done_le cb (cb a e).1 (sm.entries B).reverse
        rw [List.length_reverse] at hle
        have hp : (sm.entries B ++ [e]).length -
            ((smCallbacks cb (cb a e).1 (sm.entries B).reverse).2.2 + 1) =
            (sm.entries B).length - (smCallbacks cb (cb a e).1 (sm.entries B).reverse).2.2 := by
          simp only [List.length_append, List.length_singleton]
          omega
        simp only [SpaceMap.entries_with, Option.some.injEq, Prod.mk.injEq, true_and, hp]
        congr 1
        · rw [wordsThrough_append_of_le B _ _ (by omega)]
        · rw [List.drop_append_of_le_length (by omega), smAllocDelta_append, smAllocDelta_cons,
            smAllocDelta_nil]
          split_ifs <;> omega
      · have hfail : wordsThrough (B ++ [it]) ((sm.entries B ++ [e]).length - 0) =
            (B.flatMap SmItem.words).length + it.size := by
          rw [Nat.sub_zero, List.length_append, List.length_singleton,
            wordsThrough_append_of_lt B _ _ (by omega), hcount, Nat.add_sub_cancel_left]
          simp [wordsThrough, hit]
        rw [if_neg h0, if_neg h0, hfail, Nat.sub_zero, List.drop_length, smAllocDelta_nil,
          Int.sub_zero, ← hsize, ← hlen]

/-- The layout of the items before a block boundary, once `smp_length` is cut back to them. -/
theorem SmLayout.take_front {sm : SpaceMap} {A B : List SmItem} (hl : SmLayout sm (A ++ B))
    (alloc : ℤ) :
    SmLayout { sm with smpLength := 8 * (A.flatMap SmItem.words).length, smpAlloc := alloc } A where
  words := by
    have hw := hl.words
    rw [hl.length, Nat.mul_div_cancel_left _ (by norm_num)] at hw
    rw [Nat.mul_div_cancel_left _ (by norm_num)]
    exact (sm.readWords_split hw).1
  length := rfl
  kinded := fun it h => hl.kinded it (List.mem_append_left _ h)
  blocked := ((blocked_append 0 A B).mp hl.blocked).1
  checked := fun e he => hl.checked e (by rw [SpaceMap.entries_append]; exact List.mem_append_left _ he)

/-- A record update of the log that changes nothing. -/
theorem SpaceMap.with_self {sm : SpaceMap} {len : ℕ} (h : sm.smpLength = len) :
    ({ sm with smpLength := len, smpAlloc := sm.smpAlloc } : SpaceMap) = sm := by
  subst h
  rfl

/-- An empty map is left as it is. -/
theorem incrementalDestroyLoop_nil {sm : SpaceMap} (hl : SmLayout sm []) (k : ℕ) (a : σ) :
    incrementalDestroyLoop cb k sm a =
      some ((smCallbacks cb a (sm.entries []).reverse).1,
        (smCallbacks cb a (sm.entries []).reverse).2.1,
        { sm with
          smpLength := 8 * wordsThrough [] ((sm.entries []).length -
            (smCallbacks cb a (sm.entries []).reverse).2.2)
          smpAlloc := sm.smpAlloc - smAllocDelta ((sm.entries []).drop ((sm.entries []).length -
            (smCallbacks cb a (sm.entries []).reverse).2.2)) }) := by
  have h0 : sm.smpLength = 0 := by simpa using hl.length
  have hloop : incrementalDestroyLoop cb k sm a = some (a, 0, sm) := by
    cases k <;> simp [incrementalDestroyLoop, h0]
  simp only [hloop, SpaceMap.entries_nil, List.reverse_nil, smCallbacks_nil, List.length_nil,
    Nat.sub_zero, wordsThrough_zero, List.drop_nil, smAllocDelta_nil, Nat.mul_zero, Int.sub_zero]
  rw [SpaceMap.with_self h0]

/-- **The pass loop of `space_map_incremental_destroy`**: each pass takes the last block, from
the last multiple of `W` below the end, and the induction is on the blocks left.  A pass that
the callback stops is the last; otherwise the map is the items before the block. -/
theorem incrementalDestroyLoop_items : ∀ (k : ℕ) (its : List SmItem) (sm : SpaceMap) (a : σ),
    SmLayout sm its → (its.flatMap SmItem.words).length ≤ k * sm.blockWords →
    incrementalDestroyLoop cb k sm a =
      some ((smCallbacks cb a (sm.entries its).reverse).1,
        (smCallbacks cb a (sm.entries its).reverse).2.1,
        { sm with
          smpLength := 8 * wordsThrough its ((sm.entries its).length -
            (smCallbacks cb a (sm.entries its).reverse).2.2)
          smpAlloc := sm.smpAlloc - smAllocDelta ((sm.entries its).drop ((sm.entries its).length -
            (smCallbacks cb a (sm.entries its).reverse).2.2)) })
  | 0, its, sm, a, hl, hk => by
    obtain rfl : its = [] := eq_nil_of_flatMap_words (by rw [Nat.zero_mul] at hk; omega)
    exact incrementalDestroyLoop_nil cb hl 0 a
  | k + 1, its, sm, a, hl, hk => by
    have hW := sm.two_le_blockWords
    have hbs := sm.blksz_eq
    rcases Nat.eq_zero_or_pos (its.flatMap SmItem.words).length with hn | hn
    · obtain rfl : its = [] := eq_nil_of_flatMap_words hn
      exact incrementalDestroyLoop_nil cb hl (k + 1) a
    -- the last block starts at the last multiple of `W` below the end: cut the items there
    have hq := Nat.div_mul_le_self ((its.flatMap SmItem.words).length - 1) sm.blockWords
    obtain ⟨A, B, rfl, hA⟩ : ∃ A B, its = A ++ B ∧ (A.flatMap SmItem.words).length =
        ((its.flatMap SmItem.words).length - 1) / sm.blockWords * sm.blockWords := by
      obtain ⟨j, hj⟩ := hl.blocked.boundary
        (q := ((its.flatMap SmItem.words).length - 1) / sm.blockWords * sm.blockWords)
        (Nat.zero_le _) (by omega) (Nat.dvd_mul_left _ _)
      exact ⟨its.take j, its.drop j, (List.take_append_drop j its).symm, by omega⟩
    have hlen : ((A ++ B).flatMap SmItem.words).length =
        (A.flatMap SmItem.words).length + (B.flatMap SmItem.words).length := by simp
    have hBpos : 0 < (B.flatMap SmItem.words).length := by omega
    have hkB : ∀ it ∈ B, it.WellKinded := fun it h => hl.kinded it (List.mem_append_right _ h)
    have hcB : ∀ e ∈ sm.entries B, sm.entryAligned e = true ∧ sm.entryInRange e = true :=
      fun e he => hl.checked e (by simp [he])
    have hlast : sm.spaceMapReversedLastBlockEntries = some (B.reverse.flatMap SmItem.words) := by
      have hw := hl.words
      rw [hl.length, Nat.mul_div_cancel_left _ (by norm_num)] at hw
      rw [SpaceMap.spaceMapReversedLastBlockEntries, hl.length, hbs, SpaceMap.lastBlock_start,
        Nat.mul_div_cancel_left _ (by norm_num), ← hA,
        show (8 * ((A ++ B).flatMap SmItem.words).length - 8 * (A.flatMap SmItem.words).length) / 8
          = (B.flatMap SmItem.words).length by omega]
      have hB := (sm.readWords_split hw).2
      rw [Nat.zero_add] at hB
      rw [hB]
      exact SpaceMap.reversedEntries_items B hkB
    have hfuel : (A.flatMap SmItem.words).length ≤ k * sm.blockWords := by
      rw [hA]
      apply Nat.mul_le_mul_right
      by_contra hgt
      have : (k + 1) * sm.blockWords ≤
          ((A ++ B).flatMap SmItem.words).length - 1 := by
        calc (k + 1) * sm.blockWords
            ≤ (((A ++ B).flatMap SmItem.words).length - 1) / sm.blockWords * sm.blockWords :=
              Nat.mul_le_mul_right _ (by omega)
          _ ≤ ((A ++ B).flatMap SmItem.words).length - 1 := Nat.div_mul_le_self _ _
      omega
    rw [incrementalDestroyLoop, if_pos (by rw [hl.length]; omega), hlast]
    simp only
    rw [incrementalDestroyBlock_items cb (A.flatMap SmItem.words).length B sm a
      (by rw [hl.length, hlen]) hkB hcB]
    simp only
    have hcountA := sm.length_entries A
    rw [SpaceMap.entries_append, List.reverse_append, smCallbacks_append]
    by_cases h0 : (smCallbacks cb a (sm.entries B).reverse).2.1 = 0
    · -- the block is gone: go on with the items before it
      have hdone := smCallbacks_done_of_ok cb a _ h0
      rw [List.length_reverse] at hdone
      rw [if_pos h0, if_pos h0, hdone, Nat.sub_self, wordsThrough_zero, List.drop_zero, Nat.add_zero,
        incrementalDestroyLoop_items k A _ _ (hl.take_front _) hfuel]
      have hle := smCallbacks_done_le cb (smCallbacks cb a (sm.entries B).reverse).1
        (sm.entries A).reverse
      rw [List.length_reverse] at hle
      have hp : (sm.entries A ++ sm.entries B).length -
          ((smCallbacks cb (smCallbacks cb a (sm.entries B).reverse).1
            (sm.entries A).reverse).2.2 + (sm.entries B).length) =
          (sm.entries A).length - (smCallbacks cb (smCallbacks cb a (sm.entries B).reverse).1
            (sm.entries A).reverse).2.2 := by
        simp only [List.length_append]
        omega
      simp only [SpaceMap.entries_with, Option.some.injEq, Prod.mk.injEq, true_and, hp,
        List.length_reverse]
      congr 1
      · rw [wordsThrough_append_of_le A B _ (by omega)]
      · rw [List.drop_append_of_le_length (by omega), smAllocDelta_append]
        omega
    · -- the callback stopped in this block
      have hlt := smCallbacks_done_lt cb a _ h0
      rw [List.length_reverse] at hlt
      rw [if_neg h0, if_neg h0]
      have hp : (sm.entries A ++ sm.entries B).length -
          (smCallbacks cb a (sm.entries B).reverse).2.2 =
          (sm.entries A).length + ((sm.entries B).length -
            (smCallbacks cb a (sm.entries B).reverse).2.2) := by
        simp only [List.length_append]
        omega
      simp only [Option.some.injEq, Prod.mk.injEq, true_and, hp]
      congr 1
      · rw [wordsThrough_append_of_lt A B _ (by omega), hcountA, Nat.add_sub_cancel_left]
      · have hd : (sm.entries A ++ sm.entries B).drop ((sm.entries A).length +
            ((sm.entries B).length - (smCallbacks cb a (sm.entries B).reverse).2.2)) =
            (sm.entries B).drop ((sm.entries B).length - (smCallbacks cb a (sm.entries B).reverse).2.2) := by
          simp [List.drop_append]
        rw [hd]

/-- **`space_map_incremental_destroy`** calls the callback on the entries of the map from the
last, until one returns non-zero; it leaves the words through the last entry not finished and
takes the finished entries' `SM_ALLOC` runs off `smp_alloc` and puts their `SM_FREE` runs
back. -/
theorem spaceMapIncrementalDestroy_layout {sm : SpaceMap} {its : List SmItem} (hl : SmLayout sm its)
    (a : σ) :
    sm.spaceMapIncrementalDestroy cb a =
      some ((smCallbacks cb a (sm.entries its).reverse).1,
        (smCallbacks cb a (sm.entries its).reverse).2.1,
        { sm with
          smpLength := 8 * wordsThrough its ((sm.entries its).length -
            (smCallbacks cb a (sm.entries its).reverse).2.2)
          smpAlloc := sm.smpAlloc - smAllocDelta ((sm.entries its).drop ((sm.entries its).length -
            (smCallbacks cb a (sm.entries its).reverse).2.2)) }) := by
  have hfuel := sm.le_blocks_mul (its.flatMap SmItem.words).length
  rw [← hl.length] at hfuel
  exact incrementalDestroyLoop_items cb _ its sm a hl hfuel

end Destroy

end Zfs
