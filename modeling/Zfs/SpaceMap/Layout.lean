import Zfs.SpaceMap.Defs

/-!
# SpaceMap/Layout — the words of a space map as debug words and entries

Both readers cut a space map's words the same way, by the prefix of each first word: a debug
word, a one-word entry or a two-word entry (`SmItem`).  `SmLayout sm its` says that the map's
words are those of the items `its`, each of the kind its first word says, with no two-word entry
starting in the last word of a block (`Blocked`), and with every entry passing the checks of
the readers.  `space_map_write` keeps such a layout (`SpaceMap/Write`), and on such a layout
the readers are the callback protocol `smCallbacks` over the entries, forwards for
`space_map_iterate` and backwards for `space_map_incremental_destroy` (`SpaceMap/Iterate`).

What a destroy stopped by its callback leaves is said by `wordsThrough`, the words up to the
end of a given entry, and `smAllocDelta`, the `SM_ALLOC` runs less the `SM_FREE` runs.
-/

namespace Zfs

/-! ## Items -/

/-- A debug word, a one-word entry or the two words of a two-word entry. -/
inductive SmItem
  | debug (w : UInt64)
  | single (w : UInt64)
  | double (w₁ w₂ : UInt64)
  deriving DecidableEq, Repr

namespace SmItem

/-- The words of an item. -/
def words : SmItem → List UInt64
  | debug w => [w]
  | single w => [w]
  | double w₁ w₂ => [w₁, w₂]

/-- The number of words of an item. -/
def size (it : SmItem) : ℕ := it.words.length

@[simp] theorem length_words (it : SmItem) : it.words.length = it.size := rfl

/-- Whether an item is an entry rather than a debug word. -/
def isEntry : SmItem → Bool
  | debug _ => false
  | _ => true

/-- Whether an item is a two-word entry. -/
def isDouble : SmItem → Bool
  | double .. => true
  | _ => false

/-- The first word of the item says what the item is. -/
def WellKinded : SmItem → Prop
  | debug w => smEntryIsDebug w = true
  | single w => smEntryIsSingleWord w = true
  | double w₁ _ => smEntryIsDoubleWord w₁ = true

@[simp] theorem size_debug (w : UInt64) : (debug w).size = 1 := rfl
@[simp] theorem size_single (w : UInt64) : (single w).size = 1 := rfl
@[simp] theorem size_double (w₁ w₂ : UInt64) : (double w₁ w₂).size = 2 := rfl

theorem size_pos (it : SmItem) : 0 < it.size := by
  cases it <;> simp

end SmItem

theorem eq_nil_of_flatMap_words {its : List SmItem} (h : (its.flatMap SmItem.words).length = 0) :
    its = [] := by
  cases its with
  | nil => rfl
  | cons it its =>
    have := it.size_pos
    simp only [List.flatMap_cons, List.length_append, SmItem.length_words] at h
    omega

/-! ## What a first word says -/

theorem smEntryIsDebug_of_double {w : UInt64} (h : smEntryIsDoubleWord w = true) :
    smEntryIsDebug w = false ∧ smEntryIsSingleWord w = false := by
  simp_all [smEntryIsDebug, smEntryIsSingleWord, smEntryIsDoubleWord, smDebugPrefix, sm2Prefix]

theorem smEntryIsDebug_of_single {w : UInt64} (h : smEntryIsSingleWord w = true) :
    smEntryIsDebug w = false ∧ smEntryIsDoubleWord w = false := by
  simp_all [smEntryIsDebug, smEntryIsSingleWord, smEntryIsDoubleWord]

theorem smEntryIsDoubleWord_of_debug {w : UInt64} (h : smEntryIsDebug w = true) :
    smEntryIsDoubleWord w = false := by
  simp_all [smEntryIsDebug, smEntryIsDoubleWord, smDebugPrefix, sm2Prefix]

/-! ## The entries of the items -/

namespace SpaceMap

variable (sm : SpaceMap)

/-- The entry a reader makes of an item. -/
def itemEntry : SmItem → Option SpaceMapEntry
  | .debug _ => none
  | .single w => some (sm.singleEntry w)
  | .double w₁ w₂ => some (sm.doubleEntry w₁ w₂)

/-- The entries of the items, in order. -/
def entries (its : List SmItem) : List SpaceMapEntry := its.filterMap sm.itemEntry

@[simp] theorem entries_nil : sm.entries [] = [] := rfl

@[simp] theorem entries_debug (w : UInt64) (its : List SmItem) :
    sm.entries (.debug w :: its) = sm.entries its := rfl

@[simp] theorem entries_single (w : UInt64) (its : List SmItem) :
    sm.entries (.single w :: its) = sm.singleEntry w :: sm.entries its := rfl

@[simp] theorem entries_double (w₁ w₂ : UInt64) (its : List SmItem) :
    sm.entries (.double w₁ w₂ :: its) = sm.doubleEntry w₁ w₂ :: sm.entries its := rfl

@[simp] theorem entries_append (A B : List SmItem) :
    sm.entries (A ++ B) = sm.entries A ++ sm.entries B :=
  List.filterMap_append

theorem length_entries (its : List SmItem) :
    (sm.entries its).length = its.countP SmItem.isEntry := by
  induction its with
  | nil => rfl
  | cons it its ih =>
    simp only [entries] at ih ⊢
    cases it <;> simp [itemEntry, SmItem.isEntry, List.filterMap_cons, List.countP_cons, ih]

/-- The entries keep what a record update of the log leaves alone. -/
@[simp] theorem entries_with (len : ℕ) (alloc : ℤ) (its : List SmItem) :
    ({ sm with smpLength := len, smpAlloc := alloc } : SpaceMap).entries its = sm.entries its :=
  rfl

end SpaceMap

/-! ## The callback protocol -/

section Callbacks

variable {σ ε : Type} (cb : σ → ε → σ × Int32)

/-- **The callback protocol of both readers**: call `cb` on each entry in turn and stop at the
first that returns non-zero; the state, the error, and how many calls returned 0. -/
def smCallbacks : σ → List ε → σ × Int32 × ℕ
  | a, [] => (a, 0, 0)
  | a, e :: es =>
    if (cb a e).2 = 0 then
      let r := smCallbacks (cb a e).1 es
      (r.1, r.2.1, r.2.2 + 1)
    else ((cb a e).1, (cb a e).2, 0)

@[simp] theorem smCallbacks_nil (a : σ) : smCallbacks cb a [] = (a, 0, 0) := rfl

theorem smCallbacks_cons (a : σ) (e : ε) (es : List ε) :
    smCallbacks cb a (e :: es) =
      if (cb a e).2 = 0 then
        ((smCallbacks cb (cb a e).1 es).1, (smCallbacks cb (cb a e).1 es).2.1,
          (smCallbacks cb (cb a e).1 es).2.2 + 1)
      else ((cb a e).1, (cb a e).2, 0) := rfl

/-- A run with no error made every call. -/
theorem smCallbacks_done_of_ok : ∀ (a : σ) (es : List ε),
    (smCallbacks cb a es).2.1 = 0 → (smCallbacks cb a es).2.2 = es.length
  | _, [], _ => rfl
  | a, e :: es, h => by
    rw [smCallbacks_cons] at h ⊢
    split_ifs at h ⊢ with he
    · simpa using smCallbacks_done_of_ok (cb a e).1 es h
    · exact absurd h he

/-- A run makes at most one call per entry. -/
theorem smCallbacks_done_le : ∀ (a : σ) (es : List ε), (smCallbacks cb a es).2.2 ≤ es.length
  | _, [] => le_rfl
  | a, e :: es => by
    rw [smCallbacks_cons]
    split_ifs
    · simpa using smCallbacks_done_le (cb a e).1 es
    · simp

/-- A run that failed stopped before the end. -/
theorem smCallbacks_done_lt : ∀ (a : σ) (es : List ε),
    (smCallbacks cb a es).2.1 ≠ 0 → (smCallbacks cb a es).2.2 < es.length
  | _, [], h => absurd rfl h
  | a, e :: es, h => by
    rw [smCallbacks_cons] at h ⊢
    split_ifs at h ⊢ with he
    · simpa using smCallbacks_done_lt (cb a e).1 es h
    · simp

/-- A run over `es ++ es'` is the run over `es`, and then, if that made every call, the run
over `es'`. -/
theorem smCallbacks_append : ∀ (a : σ) (es es' : List ε),
    smCallbacks cb a (es ++ es') =
      if (smCallbacks cb a es).2.1 = 0 then
        ((smCallbacks cb (smCallbacks cb a es).1 es').1,
          (smCallbacks cb (smCallbacks cb a es).1 es').2.1,
          (smCallbacks cb (smCallbacks cb a es).1 es').2.2 + es.length)
      else smCallbacks cb a es
  | a, [], es' => by simp
  | a, e :: es, es' => by
    rw [List.cons_append, smCallbacks_cons, smCallbacks_cons]
    by_cases he : (cb a e).2 = 0
    · rw [if_pos he, if_pos he, smCallbacks_append (cb a e).1 es es']
      by_cases h₁ : (smCallbacks cb (cb a e).1 es).2.1 = 0
      · simp only [if_pos h₁, List.length_cons, Prod.mk.injEq, true_and]
        omega
      · simp only [if_neg h₁]
    · simp only [if_neg he]

/-- A callback that always returns 0 is called on every entry. -/
theorem smCallbacks_of_ok (h : ∀ a e, (cb a e).2 = 0) : ∀ (a : σ) (es : List ε),
    (smCallbacks cb a es).2 = (0, es.length)
  | _, [] => rfl
  | a, e :: es => by
    rw [smCallbacks_cons, if_pos (h a e)]
    simp [smCallbacks_of_ok h (cb a e).1 es]

end Callbacks

/-! ## Allocated space and the words through an entry -/

/-- The sum of the `SM_ALLOC` runs less the sum of the `SM_FREE` runs. -/
def smAllocDelta (es : List SpaceMapEntry) : ℤ :=
  ((es.filter (·.smeType == .smAlloc)).map fun e => (e.smeRun.toNat : ℤ)).sum -
    ((es.filter (·.smeType == .smFree)).map fun e => (e.smeRun.toNat : ℤ)).sum

@[simp] theorem smAllocDelta_nil : smAllocDelta [] = 0 := rfl

theorem smAllocDelta_cons (e : SpaceMapEntry) (es : List SpaceMapEntry) :
    smAllocDelta (e :: es) =
      (if e.smeType = .smAlloc then (e.smeRun.toNat : ℤ) else -(e.smeRun.toNat : ℤ)) +
        smAllocDelta es := by
  unfold smAllocDelta
  cases h : e.smeType <;> simp [h] <;> omega

theorem smAllocDelta_append (es es' : List SpaceMapEntry) :
    smAllocDelta (es ++ es') = smAllocDelta es + smAllocDelta es' := by
  induction es with
  | nil => simp
  | cons e es ih =>
    rw [List.cons_append, smAllocDelta_cons, smAllocDelta_cons, ih]
    omega

/-- The order of the entries does not matter. -/
theorem smAllocDelta_reverse (es : List SpaceMapEntry) : smAllocDelta es.reverse = smAllocDelta es := by
  induction es with
  | nil => rfl
  | cons e es ih =>
    rw [List.reverse_cons, smAllocDelta_append, ih, smAllocDelta_cons, smAllocDelta_cons,
      smAllocDelta_nil]
    omega

/-- The words of `its` up to the end of its `p`-th entry, the debug words before it included;
none for `p = 0`. -/
def wordsThrough : List SmItem → ℕ → ℕ
  | _, 0 => 0
  | [], _ + 1 => 0
  | it :: its, p + 1 =>
    it.size + if it.isEntry then wordsThrough its p else wordsThrough its (p + 1)

@[simp] theorem wordsThrough_zero (its : List SmItem) : wordsThrough its 0 = 0 := by
  cases its <;> rfl

/-- Through an entry of the first part, the second part does not count. -/
theorem wordsThrough_append_of_le : ∀ (A B : List SmItem) (p : ℕ),
    p ≤ A.countP SmItem.isEntry → wordsThrough (A ++ B) p = wordsThrough A p
  | _, _, 0, _ => by simp
  | [], _, p + 1, h => by simp at h
  | it :: A, B, p + 1, h => by
    rw [List.cons_append, wordsThrough, wordsThrough]
    cases hit : it.isEntry
    · rw [List.countP_cons_of_neg (by simp [hit])] at h
      simp [wordsThrough_append_of_le A B (p + 1) h]
    · rw [List.countP_cons_of_pos (by simp [hit])] at h
      simp [wordsThrough_append_of_le A B p (by omega)]

/-- Past the entries of the first part, all of its words count. -/
theorem wordsThrough_append_of_lt : ∀ (A B : List SmItem) (p : ℕ),
    A.countP SmItem.isEntry < p →
      wordsThrough (A ++ B) p =
        (A.flatMap SmItem.words).length + wordsThrough B (p - A.countP SmItem.isEntry)
  | [], B, p, _ => by simp
  | _ :: _, _, 0, h => by simp at h
  | it :: A, B, p + 1, h => by
    rw [List.cons_append, wordsThrough]
    cases hit : it.isEntry
    · rw [List.countP_cons_of_neg (by simp [hit])] at h ⊢
      rw [if_neg (by simp), wordsThrough_append_of_lt A B (p + 1) h]
      simp [Nat.add_assoc]
    · rw [List.countP_cons_of_pos (by simp [hit])] at h ⊢
      rw [if_pos rfl, wordsThrough_append_of_lt A B p (by omega)]
      simp [Nat.add_assoc]

/-! ## Blocks -/

/-- No two-word entry of `its`, laid from word `p` on, starts in the last word of a block of `w`
words. -/
def Blocked (w : ℕ) : ℕ → List SmItem → Prop
  | _, [] => True
  | p, it :: its => (it.isDouble → p % w + 1 ≠ w) ∧ Blocked w (p + it.size) its

theorem blocked_append {w : ℕ} : ∀ (p : ℕ) (A B : List SmItem),
    Blocked w p (A ++ B) ↔ Blocked w p A ∧ Blocked w (p + (A.flatMap SmItem.words).length) B
  | p, [], B => by simp [Blocked]
  | p, it :: A, B => by
    rw [List.cons_append, Blocked, Blocked, blocked_append (p + it.size) A B]
    simp only [List.flatMap_cons, List.length_append, SmItem.length_words, Nat.add_assoc, and_assoc]

/-- A word just before a multiple of `w` is the last of its block. -/
theorem not_dvd_succ_of_mod {p w : ℕ} (h : p % w + 1 ≠ w) : ¬ w ∣ p + 1 := by
  intro hd
  rcases Nat.eq_zero_or_pos w with rfl | hw
  · simp at hd
  · have hlt : p % w + 1 < w := lt_of_le_of_ne (Nat.mod_lt p hw) h
    have h0 := Nat.mod_eq_zero_of_dvd hd
    rw [Nat.add_mod, Nat.mod_eq_of_lt (show 1 < w by omega), Nat.mod_eq_of_lt hlt] at h0
    omega

/-- **A block boundary falls between items**: every multiple of `w` inside the words of blocked
items ends a prefix of them. -/
theorem Blocked.boundary {w : ℕ} : ∀ {p : ℕ} {its : List SmItem} {q : ℕ},
    Blocked w p its → p ≤ q → q ≤ p + (its.flatMap SmItem.words).length → w ∣ q →
      ∃ j, p + ((its.take j).flatMap SmItem.words).length = q
  | p, [], q, _, hpq, hq, _ => ⟨0, by simp at hq ⊢; omega⟩
  | p, it :: its, q, hb, hpq, hq, hdvd => by
    rcases Nat.eq_or_lt_of_le hpq with rfl | hlt
    · exact ⟨0, by simp⟩
    · have hnext : p + it.size ≤ q := by
        cases it with
        | debug _ => simp only [SmItem.size_debug]; omega
        | single _ => simp only [SmItem.size_single]; omega
        | double w₁ w₂ =>
          have hq1 : q ≠ p + 1 := fun hq1 => not_dvd_succ_of_mod (hb.1 rfl) (hq1 ▸ hdvd)
          simp only [SmItem.size_double]
          omega
      have hlen : ((it :: its).flatMap SmItem.words).length =
          it.size + (its.flatMap SmItem.words).length := by
        simp [List.flatMap_cons]
      obtain ⟨j, hj⟩ := Blocked.boundary hb.2 hnext (by omega) hdvd
      refine ⟨j + 1, ?_⟩
      simp only [List.take_succ_cons, List.flatMap_cons, List.length_append, SmItem.length_words]
      omega

/-! ## The layout of a map -/

/-- **The layout of a space map**: its words are those of the items `its`, each of the kind its
first word says, no two-word entry starts in the last word of a block, and every entry passes
the checks of the readers. -/
structure SmLayout (sm : SpaceMap) (its : List SmItem) : Prop where
  words : sm.readWords 0 (sm.smpLength / 8) = its.flatMap SmItem.words
  length : sm.smpLength = 8 * (its.flatMap SmItem.words).length
  kinded : ∀ it ∈ its, it.WellKinded
  blocked : Blocked sm.blockWords 0 its
  checked : ∀ e ∈ sm.entries its, sm.entryAligned e = true ∧ sm.entryInRange e = true

end Zfs
