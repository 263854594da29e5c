import Zfs.Btree.Shape

/-!
# Btree/Find — what `zfs_btree_find` finds

The binary search of one node stops at an element comparing equal to the value, or at the gap
where the value belongs (`zfsBtreeFindInBuf_found`, `zfsBtreeFindInBuf_before`).  The descent
from a well-formed subtree therefore either returns an element of the subtree comparing equal
(`zfsBtreeFindDescent_some`), or ends in a leaf below it with a gap where the value can be
inserted so that the leaf stays well-formed (`zfsBtreeFindDescent_none`), and then no element of
the subtree compares equal (`zfsBtreeFindDescent_none_ne`).  On a well-formed tree outside
bulk-insert mode, `zfs_btree_find` is thus a search of the tree's sequence
(`zfsBtreeFind_spec`).
-/

namespace Zfs

open Slots Compar

variable {α : Type} {cmp : α → α → ℤ} {S : α → Prop}

/-! ## Where elements of a subtree sit in its sequence -/

theorem mem_weave_of_mem_child {cs : List (List α)} {ss : List α} {c : List α} {a : α}
    (hlen : cs.length = ss.length + 1) (hc : c ∈ cs) (ha : a ∈ c) : a ∈ weave cs ss := by
  induction cs generalizing ss with
  | nil => cases hc
  | cons c' cs ih =>
    cases ss with
    | nil =>
      have : cs = [] := by simpa using hlen
      subst this
      simp_all
    | cons s ss =>
      rw [weave_cons_cons]
      rcases List.mem_cons.mp hc with rfl | hc
      · exact List.mem_append_left _ ha
      · exact List.mem_append_right _ (List.mem_cons_of_mem _ (ih (by simpa using hlen) hc))

theorem mem_weave_of_mem_sep {cs : List (List α)} {ss : List α} {a : α}
    (hlen : cs.length = ss.length + 1) (ha : a ∈ ss) : a ∈ weave cs ss := by
  induction ss generalizing cs with
  | nil => cases ha
  | cons s ss ih =>
    obtain ⟨c, cs, rfl⟩ := List.exists_cons_of_length_eq_add_one hlen
    rw [weave_cons_cons]
    rcases List.mem_cons.mp ha with rfl | ha
    · exact List.mem_append_right _ (List.mem_cons_self ..)
    · exact List.mem_append_right _ (List.mem_cons_of_mem _ (ih (by simpa using hlen) ha))

/-- An element of a woven sequence is a separator or an element of one of the children. -/
theorem mem_weave {a : α} : ∀ {cs : List (List α)} {ss : List α}, a ∈ weave cs ss →
    a ∈ ss ∨ ∃ i, ∃ h : i < cs.length, a ∈ cs[i]
  | [], _, h => by simp [weave] at h
  | _ :: _, [], h => Or.inr ⟨0, by simp, h⟩
  | _ :: cs, s :: ss, h => by
    rw [weave_cons_cons, List.mem_append, List.mem_cons] at h
    rcases h with h | rfl | h
    · exact Or.inr ⟨0, by simp, h⟩
    · exact Or.inl List.mem_cons_self
    · rcases mem_weave h with h | ⟨i, hi, h⟩
      · exact Or.inl (List.mem_cons_of_mem _ h)
      · exact Or.inr ⟨i + 1, by simpa using hi, h⟩

/-- `insertIdx` as `take` and `drop`. -/
theorem insertIdx_eq_take_drop {l : List α} {i : ℕ} (h : i ≤ l.length) (a : α) :
    l.insertIdx i a = l.take i ++ a :: l.drop i := by
  induction l generalizing i with
  | nil =>
    obtain rfl : i = 0 := by simpa using h
    simp
  | cons x l ih =>
    cases i with
    | zero => simp
    | succ i => simp [List.insertIdx_succ_cons, ih (by simpa using h)]

/-- The bound before a child is the node's own or one of its separators. -/
theorem boundS_boundLo {lo : Option α} {E : List α} (hlo : BoundS S lo) (hE : ∀ e ∈ E, S e)
    (i : ℕ) : BoundS S (boundLo lo E i) := by
  unfold boundLo
  split_ifs
  · exact hlo
  · cases h : E[i - 1]? with
    | none => trivial
    | some e => exact hE e (List.mem_of_getElem? h)

/-- The bound after a child is one of the node's separators or its own. -/
theorem boundS_boundHi {hi : Option α} {E : List α} (hhi : BoundS S hi) (hE : ∀ e ∈ E, S e)
    (i : ℕ) : BoundS S (boundHi hi E i) := by
  unfold boundHi
  cases h : E[i]? with
  | none => exact hhi
  | some e => exact hE e (List.mem_of_getElem? h)

/-- The bound before child `i > 0` of a node is separator `i - 1`. -/
theorem boundLo_of_pos (n : ZfsBtreeHdr α) (lo : Option α) {i : ℕ} (h0 : i ≠ 0)
    (h : i ≤ n.bthCount) : boundLo lo n.elemList i = some (n.btElems (i - 1)) := by
  rw [boundLo, if_neg h0, List.getElem?_eq_getElem (by simp; omega)]
  simp

/-- The bound after child `i < bth_count` of a node is separator `i`. -/
theorem boundHi_of_lt (n : ZfsBtreeHdr α) (hi : Option α) {i : ℕ} (h : i < n.bthCount) :
    boundHi hi n.elemList i = some (n.btElems i) := by
  rw [boundHi, List.getElem?_eq_getElem (by simpa using h)]
  simp

/-- A child slot of a node holds one of its children. -/
theorem btcChildren_mem_childList (n : ZfsBtreeHdr α) {i : ℕ} (hi : i ≤ n.bthCount) :
    n.btcChildren i ∈ n.childList :=
  mem_toList.mpr ⟨i, Nat.lt_succ_of_le hi, rfl⟩

/-- The subtree of child `i` of a well-formed core node. -/
theorem Sub.child {d : ℕ} {x p : NodeId} {lo hi : Option α}
    {nodes : NodeId → ZfsBtreeHdr α} (h : Sub cmp S nodes (d + 1) x p lo hi) {i : ℕ}
    (hle : i ≤ (nodes x).bthCount) :
    Sub cmp S nodes d ((nodes x).btcChildren i) x (boundLo lo (nodes x).elemList i)
      (boundHi hi (nodes x).elemList i) :=
  BtPos.sub_child (P := ⟨d + 1, x, p, lo, hi⟩) (Nat.succ_pos d) hle h

/-! ## The binary search of one node -/

section Buf

variable {t : ZfsBtree α} {v : α} (hcmp : t.btCompar = cmp) (hc : On cmp S) (hv : S v)
include hcmp hc hv

/-- **A search of a node that hits** stops at an element comparing equal. -/
theorem zfsBtreeFindInBuf_found {buf : ℕ → α} {n k : ℕ} {lo hi : Option α}
    (hinc : Inc cmp S lo (toList buf n) hi) (h : zfsBtreeFindInBuf t buf n v = (k, false)) :
    k < n ∧ cmp (buf k) v = 0 := by
  rw [zfsBtreeFindInBuf, hcmp] at h
  obtain ⟨-, hk, hneg, hpos⟩ := BinarySearch.loop_found h
  have hS : S (buf k) := hinc.mem_s _ (mem_toList.mpr ⟨k, hk, rfl⟩)
  refine ⟨hk, ?_⟩
  rcases hc.trichotomy _ _ hS hv with h | h | h <;> simp_all

/-- **A search of a node that misses** stops at the gap where the value belongs: elements
before it are below the value, elements from it on above. -/
theorem zfsBtreeFindInBuf_before {buf : ℕ → α} {n k : ℕ} {lo hi : Option α}
    (hinc : Inc cmp S lo (toList buf n) hi) (h : zfsBtreeFindInBuf t buf n v = (k, true)) :
    k ≤ n ∧ (∀ i < k, cmp (buf i) v = -1) ∧ ∀ i, k ≤ i → i < n → cmp (buf i) v = 1 := by
  rw [zfsBtreeFindInBuf, hcmp] at h
  have hS : ∀ i < n, S (buf i) := fun i hi => hinc.mem_s _ (mem_toList.mpr ⟨i, hi, rfl⟩)
  have hlt : ∀ i j, i < j → j < n → cmp (buf i) (buf j) = -1 := by
    intro i j hij hj
    have := List.pairwise_iff_getElem.mp (hinc.pairwise hc) i j (by simp; omega) (by simp; omega) hij
    simpa using this
  obtain ⟨-, hkn, hbelow, habove⟩ := BinarySearch.loop_before
    (monotone3_of_lt hc buf n hv hS hlt) le_rfl le_rfl (Nat.zero_le n) (by omega)
    (fun i _ hi => absurd hi (Nat.not_lt_zero i)) (fun i hi1 hi2 => absurd hi2 (by omega)) h
  exact ⟨hkn, fun i hi => hbelow i (Nat.zero_le i) hi, habove⟩

/-- **A miss leaves a gap for the value**: inserted there, between bounds around it, the node's
elements still increase. -/
theorem inc_insertIdx_of_before {buf : ℕ → α} {n k : ℕ} {lo hi : Option α}
    (hinc : Inc cmp S lo (toList buf n) hi) (h : zfsBtreeFindInBuf t buf n v = (k, true))
    (hlo : BoundLt cmp lo (some v)) (hhi : BoundLt cmp (some v) hi) :
    Inc cmp S lo ((toList buf n).insertIdx k v) hi := by
  obtain ⟨hkn, hbelow, habove⟩ := zfsBtreeFindInBuf_before hcmp hc hv hinc h
  rw [insertIdx_eq_take_drop (by simpa using hkn)]
  refine inc_insert hv hlo hhi ?_ ?_ (by rwa [List.take_append_drop])
  · intro a ha
    rw [take_toList _ hkn] at ha
    obtain ⟨i, hi, rfl⟩ := mem_toList.mp ha
    exact hbelow i hi
  · intro b hb
    rw [drop_toList] at hb
    obtain ⟨i, hi, rfl⟩ := mem_toList.mp hb
    have hS : S (buf (k + i)) := hinc.mem_s _ (mem_toList.mpr ⟨k + i, by omega, rfl⟩)
    exact (hc.gt_iff hv hS).mp (habove (k + i) (by omega) (by omega))

/-- **A search of a node that misses** has passed no element comparing equal. -/
theorem zfsBtreeFindInBuf_before_ne {buf : ℕ → α} {n k : ℕ} {lo hi : Option α}
    (hinc : Inc cmp S lo (toList buf n) hi) (h : zfsBtreeFindInBuf t buf n v = (k, true)) :
    ∀ e ∈ toList buf n, cmp e v ≠ 0 := by
  obtain ⟨-, hbelow, habove⟩ := zfsBtreeFindInBuf_before hcmp hc hv hinc h
  intro e he
  obtain ⟨i, hi, rfl⟩ := mem_toList.mp he
  rcases Nat.lt_or_ge i k with hik | hik
  · simp [hbelow i hik]
  · simp [habove i hik hi]

end Buf

/-! ## The descent -/

section Descent

variable {t : ZfsBtree α} {v : α} (hcmp : t.btCompar = cmp) (hc : On cmp S) (hv : S v)
include hcmp hc hv

/-- **The descent finds what is there**: an element of the subtree comparing equal. -/
theorem zfsBtreeFindDescent_some : ∀ {d : ℕ} {x p : NodeId} {lo hi : Option α},
    Sub cmp S t.nodes d x p lo hi → ∀ {y : NodeId} {k : ℕ},
      (zfsBtreeFindDescent t v d x).1 = some (y, k) →
      (zfsBtreeFindDescent t v d x).2 = ⟨y, k, false⟩ ∧ k < (t.nodes y).bthCount ∧
        cmp ((t.nodes y).btElems k) v = 0 ∧ (t.nodes y).btElems k ∈ inorder t.nodes d x
  | 0, x, p, lo, hi, hsub, y, k, h => by
    obtain ⟨-, -, -, hinc⟩ := hsub
    rcases hbuf : zfsBtreeFindInBuf t (t.nodes x).btElems (t.nodes x).bthCount v with
      ⟨off, _ | _⟩
    · simp only [zfsBtreeFindDescent, hbuf] at h ⊢
      obtain ⟨rfl, rfl⟩ := Prod.mk.inj (Option.some.inj h.symm)
      obtain ⟨hk, heq⟩ := zfsBtreeFindInBuf_found hcmp hc hv hinc hbuf
      exact ⟨rfl, hk, heq, mem_toList.mpr ⟨_, hk, rfl⟩⟩
    · simp [zfsBtreeFindDescent, hbuf] at h
  | d + 1, x, p, lo, hi, hsub, y, k, h => by
    have hinc := hsub.2.2.2.1
    rcases hbuf : zfsBtreeFindInBuf t (t.nodes x).btElems (t.nodes x).bthCount v with
      ⟨off, _ | _⟩
    · -- a separator of this node
      simp only [zfsBtreeFindDescent, hbuf] at h ⊢
      obtain ⟨rfl, rfl⟩ := Prod.mk.inj (Option.some.inj h.symm)
      obtain ⟨hk, heq⟩ := zfsBtreeFindInBuf_found hcmp hc hv hinc hbuf
      refine ⟨rfl, hk, heq, ?_⟩
      exact mem_weave_of_mem_sep (by simp) (mem_toList.mpr ⟨_, hk, rfl⟩)
    · -- down into child `off`
      simp only [zfsBtreeFindDescent, hbuf, if_true] at h ⊢
      have hoff := (zfsBtreeFindInBuf_before hcmp hc hv hinc hbuf).1
      obtain ⟨h1, h2, h3, h4⟩ := zfsBtreeFindDescent_some (hsub.child hoff) h
      refine ⟨h1, h2, h3, ?_⟩
      exact mem_weave_of_mem_child (by simp)
        (List.mem_map_of_mem (btcChildren_mem_childList _ hoff)) h4

/-- **The descent misses only into a gap**: it ends in a leaf below the subtree, at a place where
the value goes in with the leaf's elements still increasing between its bounds. -/
theorem zfsBtreeFindDescent_none : ∀ {d : ℕ} {x p : NodeId} {lo hi : Option α},
    Sub cmp S t.nodes d x p lo hi → BoundLt cmp lo (some v) → BoundLt cmp (some v) hi →
    (zfsBtreeFindDescent t v d x).1 = none →
    ∃ (L : BtPos α) (k : ℕ), Reach t.nodes ⟨d, x, p, lo, hi⟩ L ∧ L.depth = 0 ∧
      (zfsBtreeFindDescent t v d x).2 = ⟨L.node, k, true⟩ ∧ k ≤ (t.nodes L.node).bthCount ∧
      Inc cmp S L.lo ((t.nodes L.node).elemList.insertIdx k v) L.hi
  | 0, x, p, lo, hi, hsub, hlo, hhi, h => by
    obtain ⟨-, -, -, hinc⟩ := hsub
    rcases hbuf : zfsBtreeFindInBuf t (t.nodes x).btElems (t.nodes x).bthCount v with
      ⟨off, _ | _⟩
    · simp [zfsBtreeFindDescent, hbuf] at h
    · simp only [zfsBtreeFindDescent, hbuf]
      refine ⟨⟨0, x, p, lo, hi⟩, off, .refl _, rfl, rfl,
        (zfsBtreeFindInBuf_before hcmp hc hv hinc hbuf).1, ?_⟩
      exact inc_insertIdx_of_before hcmp hc hv hinc hbuf hlo hhi
  | d + 1, x, p, lo, hi, hsub, hlo, hhi, h => by
    have hinc := hsub.2.2.2.1
    rcases hbuf : zfsBtreeFindInBuf t (t.nodes x).btElems (t.nodes x).bthCount v with
      ⟨off, _ | _⟩
    · simp [zfsBtreeFindDescent, hbuf] at h
    · simp only [zfsBtreeFindDescent, hbuf, if_true] at h ⊢
      obtain ⟨hoff, hbelow, habove⟩ := zfsBtreeFindInBuf_before hcmp hc hv hinc hbuf
      -- the value lies between the separators around child `off`
      have hlo' : BoundLt cmp (boundLo lo (t.nodes x).elemList off) (some v) := by
        by_cases h0 : off = 0
        · simpa [boundLo, h0] using hlo
        · rw [boundLo_of_pos _ _ h0 hoff, boundLt_some]
          exact hbelow (off - 1) (by omega)
      have hhi' : BoundLt cmp (some v) (boundHi hi (t.nodes x).elemList off) := by
        by_cases hlt : off < (t.nodes x).bthCount
        · have hS : S ((t.nodes x).btElems off) := hinc.mem_s _ (mem_toList.mpr ⟨off, hlt, rfl⟩)
          rw [boundHi_of_lt _ _ hlt, boundLt_some]
          exact (hc.gt_iff hv hS).mp (habove off le_rfl hlt)
        · rw [boundHi, List.getElem?_eq_none (by simp; omega)]
          exact hhi
      obtain ⟨L, k, hR, hL⟩ := zfsBtreeFindDescent_none (hsub.child hoff) hlo' hhi' h
      exact ⟨L, k, .child off (Nat.succ_pos d) hoff hR, hL⟩

/-- **The descent misses only what is not there**: no element of the subtree compares equal to
the value. -/
theorem zfsBtreeFindDescent_none_ne : ∀ {d : ℕ} {x p : NodeId} {lo hi : Option α},
    Sub cmp S t.nodes d x p lo hi → BoundS S lo → BoundS S hi →
    (zfsBtreeFindDescent t v d x).1 = none → ∀ e ∈ inorder t.nodes d x, cmp e v ≠ 0
  | 0, x, p, lo, hi, hsub, _, _, h => by
    obtain ⟨-, -, -, hinc⟩ := hsub
    rcases hbuf : zfsBtreeFindInBuf t (t.nodes x).btElems (t.nodes x).bthCount v with
      ⟨off, _ | _⟩
    · simp [zfsBtreeFindDescent, hbuf] at h
    · exact zfsBtreeFindInBuf_before_ne hcmp hc hv hinc hbuf
  | d + 1, x, p, lo, hi, hsub, hlo, hhi, h => by
    have hinc := hsub.2.2.2.1
    have hE : ∀ s ∈ (t.nodes x).elemList, S s := hinc.mem_s
    rcases hbuf : zfsBtreeFindInBuf t (t.nodes x).btElems (t.nodes x).bthCount v with
      ⟨off, _ | _⟩
    · simp [zfsBtreeFindDescent, hbuf] at h
    simp only [zfsBtreeFindDescent, hbuf, if_true] at h
    obtain ⟨hoff, hbelow, habove⟩ := zfsBtreeFindInBuf_before hcmp hc hv hinc hbuf
    intro e he
    rcases mem_weave he with hsep | ⟨i, hlen, hei⟩
    · exact zfsBtreeFindInBuf_before_ne hcmp hc hv hinc hbuf e hsep
    -- `e` is in child `i`, strictly between the separators around it
    have hile : i ≤ (t.nodes x).bthCount := by simp at hlen; omega
    replace hei : e ∈ inorder t.nodes d ((t.nodes x).btcChildren i) := by simpa using hei
    have hsubi := hsub.child hile
    have hS : S e := (inc_inorder hsubi).mem_s e hei
    obtain ⟨helo, hehi⟩ := ((inc_inorder hsubi).bounds hc (boundS_boundLo hlo hE i)
      (boundS_boundHi hhi hE i)).2 e hei
    rcases Nat.lt_trichotomy i off with hlt | rfl | hgt
    · -- left of the gap: below separator `i`, which is below the value
      have hsi : S ((t.nodes x).btElems i) := hE _ (mem_toList.mpr ⟨i, by omega, rfl⟩)
      rw [boundHi_of_lt _ _ (by omega), boundLt_some] at hehi
      simp [hc.trans _ _ _ hS hsi hv hehi (hbelow i hlt)]
    · exact zfsBtreeFindDescent_none_ne hsubi (boundS_boundLo hlo hE i) (boundS_boundHi hhi hE i)
        h e hei
    · -- right of the gap: above separator `i - 1`, which is above the value
      have hsi : S ((t.nodes x).btElems (i - 1)) := hE _ (mem_toList.mpr ⟨i - 1, by omega, rfl⟩)
      rw [boundLo_of_pos _ _ (by omega) hile, boundLt_some] at helo
      have hvs : cmp v ((t.nodes x).btElems (i - 1)) = -1 :=
        (hc.gt_iff hv hsi).mp (habove (i - 1) (by omega) (by omega))
      simp [(hc.gt_iff hv hS).mpr (hc.trans _ _ _ hv hsi hS hvs helo)]

end Descent

/-! ## The search of a whole tree -/

/-- **A well-formed tree**: empty (`bt_height` is `-1`), or its root heads a well-formed subtree of
height `bt_height`, with no parent and no bounds. -/
def ZfsBtree.Wf (cmp : α → α → ℤ) (S : α → Prop) (t : ZfsBtree α) : Prop :=
  t.btHeight ≠ -1 → Sub cmp S t.nodes t.btHeight.toNat t.btRoot 0 none none

section Tree

variable {t : ZfsBtree α} {v : α}

/-- **`zfs_btree_find` outside bulk-insert mode searches the tree's sequence.**  On a well-formed
tree whose comparator obeys the comparator laws, a search for an admissible value returns an
element of the sequence comparing equal, at its place; or `NULL`, and then no element of the
sequence compares equal and `where` is a gap of a leaf where the value goes in with the leaf's
elements still increasing between its bounds. -/
theorem zfsBtreeFind_spec (hcmp : t.btCompar = cmp) (hc : On cmp S) (hv : S v)
    (hbulk : t.btBulk = 0) (hwf : t.Wf cmp S) :
    (∀ y k, (zfsBtreeFind t v).1 = some (y, k) →
      (zfsBtreeFind t v).2 = ⟨y, k, false⟩ ∧ k < (t.nodes y).bthCount ∧
        cmp ((t.nodes y).btElems k) v = 0 ∧ (t.nodes y).btElems k ∈ t.seq) ∧
    ((zfsBtreeFind t v).1 = none → (∀ e ∈ t.seq, cmp e v ≠ 0) ∧
      (t.btHeight ≠ -1 → ∃ (L : BtPos α) (k : ℕ),
        Reach t.nodes ⟨t.btHeight.toNat, t.btRoot, 0, none, none⟩ L ∧ L.depth = 0 ∧
        (zfsBtreeFind t v).2 = ⟨L.node, k, true⟩ ∧ k ≤ (t.nodes L.node).bthCount ∧
        Inc cmp S L.lo ((t.nodes L.node).elemList.insertIdx k v) L.hi)) := by
  by_cases hh : t.btHeight = -1
  · -- the empty tree holds nothing and finds nothing
    simp [zfsBtreeFind, ZfsBtree.seq, hh]
  -- otherwise the search is the descent from the root
  have hsub := hwf hh
  have hfind : zfsBtreeFind t v = zfsBtreeFindDescent t v t.btHeight.toNat t.btRoot := by
    simp [zfsBtreeFind, hh, hbulk]
  rw [hfind, ZfsBtree.seq, if_neg hh]
  refine ⟨fun y k h => zfsBtreeFindDescent_some hcmp hc hv hsub h, fun h => ⟨?_, fun _ => ?_⟩⟩
  · exact zfsBtreeFindDescent_none_ne hcmp hc hv hsub boundS_none boundS_none h
  · exact zfsBtreeFindDescent_none hcmp hc hv hsub boundLt_none_left boundLt_none_right h

/-- `TREE_CMP` on naturals: `1` above, `-1` below, `0` equal. -/
def natTreeCmp (a b : ℕ) : ℤ := (if a > b then 1 else 0) - (if a < b then 1 else 0)

theorem natTreeCmp_on : On natTreeCmp fun _ => True := by
  refine ⟨fun a b _ _ => ?_, fun a b _ _ => ?_, fun a b c _ _ _ hab hbc => ?_⟩ <;>
    simp only [natTreeCmp] at * <;> split_ifs at * <;> omega

/-- A tree of height one: the root holds `5` between a leaf holding `1, 3` and a leaf holding
`7`. -/
def twoLeafTree : ZfsBtree ℕ where
  btRoot := 1
  btHeight := 1
  btElemSize := 8
  btNumElems := 4
  btNumNodes := 3
  btBulk := 0
  btCompar := natTreeCmp
  nodes
    | 1 => ⟨0, true, 1, fun _ => 5, fun i => if i = 0 then 2 else 3⟩
    | 2 => ⟨1, false, 2, fun i => if i = 0 then 1 else 3, fun _ => 0⟩
    | _ => ⟨1, false, 1, fun _ => 7, fun _ => 0⟩
  nextId := 4

theorem twoLeafTree_wf : twoLeafTree.Wf natTreeCmp fun _ => True := by
  intro _
  simp [twoLeafTree, Sub, SepChain, ZfsBtreeHdr.elemList, ZfsBtreeHdr.childList, toList,
    List.ofFn_succ, natTreeCmp]

theorem zfsBtreeFind_spec_three :
    twoLeafTree.Wf natTreeCmp (fun _ => True) ∧ (zfsBtreeFind twoLeafTree 3).1 = some (2, 1) ∧
      (zfsBtreeFind twoLeafTree 3).2 = ⟨2, 1, false⟩ ∧ 3 ∈ twoLeafTree.seq :=
  have h := (zfsBtreeFind_spec rfl natTreeCmp_on trivial rfl twoLeafTree_wf).1 2 1 (by decide)
  ⟨twoLeafTree_wf, by decide, h.1, h.2.2.2⟩

example : (zfsBtreeFind twoLeafTree 6).2 = ⟨3, 0, true⟩ := by decide

end Tree

end Zfs
