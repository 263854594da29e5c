import Mathlib

/-!
# Lib/Buffer — buffers as lists: writes at an offset, cuttings into pieces, walks over the pieces

A buffer is a list of its bytes. `writeAt l off xs` is `memcpy(l + off, xs, |xs|)`: the bytes of
`xs` replace those from `off` on, the rest stay. A buffer laid over a list of chunks is their
`flatten`, and the byte `o` of chunk `i` is the byte `(ls.take i).flatten.length + o` of it; a
read or a write inside one chunk is the same read or write of the flattened buffer.

A cutting of a buffer into consecutive pieces is the list of their lengths (`chop`).
`iterPieces f` calls `f` on the pieces in turn and stops after the first call that returns a
non-zero code: the flat meaning of a walk that hands a callback one mapped piece at a time.

* `writeAt_writeAt` — two adjacent writes are one write of both
* `take_drop_getD` and `flatten_modify_writeAt` — reads and writes in a chunk are reads and
  writes of the flattened chunks
* `flatten_chop`, `map_length_chop` — a cutting by lengths that sum to the buffer's length gives
  back the buffer, and pieces of those lengths
* `iterPieces_cons` — the walk, one piece at a time
-/

namespace Buffer

variable {α β γ σ : Type*}

/-! ## Writes at an offset -/

/-- `memcpy(l + off, xs, |xs|)`. -/
def writeAt (l : List α) (off : ℕ) (xs : List α) : List α :=
  l.take off ++ xs ++ l.drop (off + xs.length)

theorem length_writeAt {l xs : List α} {off : ℕ} (h : off + xs.length ≤ l.length) :
    (writeAt l off xs).length = l.length := by
  simp only [writeAt, List.length_append, List.length_take, List.length_drop]
  omega

@[simp] theorem writeAt_nil (l : List α) (off : ℕ) : writeAt l off [] = l := by
  simp [writeAt]

theorem drop_writeAt {l xs : List α} {off : ℕ} (h : off ≤ l.length) :
    (writeAt l off xs).drop (off + xs.length) = l.drop (off + xs.length) := by
  exact List.drop_left' (by simp [h])

/-- **Two adjacent writes are one.** -/
theorem writeAt_writeAt {l xs ys : List α} {off : ℕ} (h : off + xs.length ≤ l.length) :
    writeAt (writeAt l off xs) (off + xs.length) ys = writeAt l off (xs ++ ys) := by
  have hhead : (writeAt l off xs).take (off + xs.length) = l.take off ++ xs :=
    List.take_left' (by simp; omega)
  have htail : (writeAt l off xs).drop (off + xs.length + ys.length) =
      l.drop (off + (xs ++ ys).length) := by
    rw [← List.drop_drop, drop_writeAt (by omega), List.drop_drop, List.length_append,
      Nat.add_assoc]
  rw [writeAt, hhead, htail, writeAt]
  simp only [List.append_assoc]

theorem writeAt_append_left {l r xs : List α} {off : ℕ} (h : off + xs.length ≤ l.length) :
    writeAt (l ++ r) off xs = writeAt l off xs ++ r := by
  simp only [writeAt, List.take_append_of_le_length (by omega : off ≤ l.length),
    List.drop_append_of_le_length h, List.append_assoc]

theorem writeAt_append_right (l r xs : List α) (off : ℕ) :
    writeAt (l ++ r) (l.length + off) xs = l ++ writeAt r off xs := by
  simp only [writeAt, List.take_append, List.drop_append, Nat.add_assoc,
    Nat.add_sub_cancel_left, List.append_assoc]
  rw [List.take_of_length_le (by omega), List.drop_eq_nil_of_le (by omega), List.nil_append]

/-- A window inside the first `m` bytes is a window of the buffer. -/
theorem take_drop_take {l : List α} {off n m : ℕ} (h : off + n ≤ m) :
    ((l.take m).drop off).take n = (l.drop off).take n := by
  rw [List.drop_take, List.take_take, Nat.min_eq_left (by omega)]

/-- A write inside a window of a buffer is a write inside the window. -/
theorem take_drop_writeAt_add {l xs : List α} {d p n : ℕ} (hp : p + xs.length ≤ n)
    (hn : d + n ≤ l.length) :
    ((writeAt l (d + p) xs).drop d).take n = writeAt ((l.drop d).take n) p xs := by
  obtain ⟨A, W, R, rfl, rfl, rfl⟩ : ∃ A W R : List α, l = A ++ (W ++ R) ∧ A.length = d ∧
      W.length = n :=
    ⟨l.take d, (l.drop d).take n, l.drop (d + n),
      by rw [← List.drop_drop, List.take_append_drop, List.take_append_drop], by simp; omega,
      by simp; omega⟩
  rw [writeAt_append_right, List.drop_left' rfl, List.drop_left' rfl, List.take_left' rfl,
    writeAt_append_left hp, List.take_left' (length_writeAt hp)]

/-- After a write at `p`, what follows it in a window from `p` is as before. -/
theorem drop_take_writeAt {l xs : List α} {p n : ℕ} (h : p ≤ l.length) :
    ((writeAt l p xs).drop (p + xs.length)).take (n - xs.length) =
      ((l.drop p).take n).drop xs.length := by
  rw [drop_writeAt h, List.drop_take, List.drop_drop]

/-! ## Chunks -/

theorem length_getD (ls : List (List α)) (i : ℕ) :
    (ls.getD i []).length = (ls.map List.length).getD i 0 := by
  simp only [List.getD_eq_getElem?_getD, List.getElem?_map]
  cases ls[i]? <;> rfl

theorem length_flatten_take (ls : List (List α)) (i : ℕ) :
    (ls.take i).flatten.length = ((ls.map List.length).take i).sum := by
  rw [List.length_flatten, List.map_take]

/-- A read inside chunk `i` is a read of the flattened chunks. -/
theorem take_drop_getD : ∀ {ls : List (List α)} {i o n : ℕ}, o + n ≤ (ls.getD i []).length →
    ((ls.getD i []).drop o).take n = (ls.flatten.drop ((ls.take i).flatten.length + o)).take n
  | [], _, _, _, _ => by simp
  | l :: ls, 0, o, n, h => by
      simp only [List.getD_cons_zero, List.take_zero, List.flatten_nil, List.length_nil,
        Nat.zero_add, List.flatten_cons] at h ⊢
      rw [List.drop_append_of_le_length (by omega), List.take_append_of_le_length (by simp; omega)]
  | l :: ls, i + 1, o, n, h => by
      simp only [List.getD_cons_succ] at h
      rw [List.getD_cons_succ, take_drop_getD h, List.take_succ_cons, List.flatten_cons,
        List.flatten_cons, List.length_append, Nat.add_assoc, List.drop_length_add_append]

/-- A write inside chunk `i` is a write of the flattened chunks. -/
theorem flatten_modify_writeAt : ∀ {ls : List (List α)} {i o : ℕ} {xs : List α},
    o + xs.length ≤ (ls.getD i []).length →
    (ls.modify i (writeAt · o xs)).flatten = writeAt ls.flatten ((ls.take i).flatten.length + o) xs
  | [], _, _, xs, h => by
      simp only [List.getD_nil, List.length_nil] at h
      have hxs : xs = [] := List.eq_nil_of_length_eq_zero (by omega)
      simp [hxs]
  | l :: ls, 0, o, xs, h => by
      simp only [List.getD_cons_zero] at h
      simp only [List.modify_zero_cons, List.flatten_cons, List.take_zero, List.flatten_nil,
        List.length_nil, Nat.zero_add]
      rw [writeAt_append_left h]
  | l :: ls, i + 1, o, xs, h => by
      simp only [List.getD_cons_succ] at h
      simp only [List.modify_succ_cons, List.flatten_cons, List.take_succ_cons,
        List.length_append]
      rw [flatten_modify_writeAt h, Nat.add_assoc, writeAt_append_right]

theorem map_length_modify_writeAt : ∀ {ls : List (List α)} {i o : ℕ} {xs : List α},
    o + xs.length ≤ (ls.getD i []).length →
    (ls.modify i (writeAt · o xs)).map List.length = ls.map List.length
  | [], _, _, _, _ => by simp
  | l :: ls, 0, o, xs, h => by
      simp only [List.getD_cons_zero] at h
      simp [length_writeAt h]
  | l :: ls, i + 1, o, xs, h => by
      simp only [List.getD_cons_succ] at h
      simp only [List.modify_succ_cons, List.map_cons, map_length_modify_writeAt h]

/-! ## Cuttings -/

/-- The buffer cut into consecutive pieces of the lengths `ns` (the last ones short if the
buffer is). -/
def chop : List ℕ → List α → List (List α)
  | [], _ => []
  | n :: ns, l => l.take n :: chop ns (l.drop n)

@[simp] theorem chop_nil (l : List α) : chop [] l = [] := rfl

@[simp] theorem chop_cons (n : ℕ) (ns : List ℕ) (l : List α) :
    chop (n :: ns) l = l.take n :: chop ns (l.drop n) := rfl

theorem length_chop : ∀ (ns : List ℕ) (l : List α), (chop ns l).length = ns.length
  | [], _ => rfl
  | _ :: ns, l => by simp [length_chop ns]

/-- **The pieces give back the buffer.** -/
theorem flatten_chop : ∀ (ns : List ℕ) (l : List α), ns.sum = l.length → (chop ns l).flatten = l
  | [], l, h => (List.eq_nil_of_length_eq_zero h.symm).symm
  | n :: ns, l, h => by
      simp only [List.sum_cons] at h
      rw [chop_cons, List.flatten_cons, flatten_chop ns _ (by simp; omega), List.take_append_drop]

theorem map_length_chop : ∀ (ns : List ℕ) (l : List α), ns.sum ≤ l.length →
    (chop ns l).map List.length = ns
  | [], _, _ => rfl
  | n :: ns, l, h => by
      simp only [List.sum_cons] at h
      rw [chop_cons, List.map_cons, map_length_chop ns _ (by simp; omega), List.length_take,
        Nat.min_eq_left (by omega)]

/-- Every length is cut by positive lengths: by none, or by itself. -/
theorem exists_pos_sum (n : ℕ) : ∃ ns : List ℕ, (∀ m ∈ ns, 0 < m) ∧ ns.sum = n := by
  rcases Nat.eq_zero_or_pos n with rfl | h
  · exact ⟨[], by simp, rfl⟩
  · exact ⟨[n], by simpa using h, by simp⟩

/-- The pieces of positive lengths are not empty. -/
theorem ne_nil_of_mem_chop : ∀ {ns : List ℕ} {l p : List α}, (∀ n ∈ ns, 0 < n) →
    ns.sum ≤ l.length → p ∈ chop ns l → p ≠ []
  | [], _, _, _, _, hp => absurd hp (by simp)
  | n :: ns, l, p, hpos, h, hp => by
      simp only [List.sum_cons] at h
      rcases List.mem_cons.mp hp with rfl | hp
      · have hn : 0 < n := hpos n List.mem_cons_self
        exact List.ne_nil_of_length_pos (by simp; omega)
      · exact ne_nil_of_mem_chop (fun m hm => hpos m (List.mem_cons_of_mem _ hm)) (by simp; omega)
          hp

/-- **A cutting by positive lengths that sum to the buffer's length is a list of non-empty
pieces that concatenate to the buffer.** -/
theorem chop_pieces {ns : List ℕ} {l : List α} (hpos : ∀ n ∈ ns, 0 < n) (hsum : ns.sum = l.length) :
    (∀ q ∈ chop ns l, q ≠ []) ∧ (chop ns l).flatten = l :=
  ⟨fun _ hq => ne_nil_of_mem_chop hpos (Nat.le_of_eq hsum) hq, flatten_chop ns l hsum⟩

/-- Two buffers cut by the same lengths give pieces of one length, pair by pair. -/
theorem length_eq_of_mem_zip_chop {l₁ : List α} {l₂ : List β} : ∀ {ns : List ℕ}
    {q : List α × List β}, ns.sum ≤ l₁.length → ns.sum ≤ l₂.length →
    q ∈ (chop ns l₁).zip (chop ns l₂) → q.1.length = q.2.length := by
  intro ns
  induction ns generalizing l₁ l₂ with
  | nil => simp
  | cons n ns ih =>
    intro q h₁ h₂ hq
    simp only [List.sum_cons] at h₁ h₂
    rw [chop_cons, chop_cons, List.zip_cons_cons, List.mem_cons] at hq
    rcases hq with rfl | hq
    · simp only [List.length_take]
      omega
    · exact ih (by simp; omega) (by simp; omega) hq

/-! ## Comparisons -/

/-- `memcmp` of two runs of bytes: the difference of the first two bytes that differ, and 0 if
none do. -/
def memcmp : List UInt8 → List UInt8 → ℤ
  | a :: as, b :: bs => if a = b then memcmp as bs else (a.toNat : ℤ) - b.toNat
  | _, _ => 0

theorem memcmp_cons_ne {a b : UInt8} (as bs : List UInt8) (h : a ≠ b) :
    memcmp (a :: as) (b :: bs) ≠ 0 := by
  rw [memcmp, if_neg h]
  intro h0
  exact h (UInt8.toNat_inj.mp (by omega))

/-- **A comparison of two runs split at the same place** is that of the first parts, or, if
they are equal, of the second. -/
theorem memcmp_append : ∀ {as bs : List UInt8} (as' bs' : List UInt8), as.length = bs.length →
    memcmp (as ++ as') (bs ++ bs') = if memcmp as bs = 0 then memcmp as' bs' else memcmp as bs
  | [], [], _, _, _ => by simp [memcmp]
  | a :: as, b :: bs, as', bs', h => by
      simp only [List.length_cons, Nat.add_right_cancel_iff] at h
      by_cases hab : a = b
      · simp only [List.cons_append, memcmp, if_pos hab]
        exact memcmp_append as' bs' h
      · rw [if_neg (memcmp_cons_ne as bs hab), List.cons_append, List.cons_append, memcmp,
          if_neg hab, memcmp, if_neg hab]
  | [], _ :: _, _, _, h => by simp at h
  | _ :: _, [], _, _, h => by simp at h

/-- **`memcmp` is 0 exactly on equal runs, and otherwise the difference of the first two bytes
that differ.** -/
theorem memcmp_spec : ∀ {as bs : List UInt8}, as.length = bs.length →
    (memcmp as bs = 0 ↔ as = bs) ∧ (as ≠ bs → ∃ (i : ℕ) (hi : i < as.length) (hb : i < bs.length),
      as.take i = bs.take i ∧ as[i] ≠ bs[i] ∧ memcmp as bs = (as[i].toNat : ℤ) - bs[i].toNat)
  | [], [], _ => by simp [memcmp]
  | a :: as, b :: bs, h => by
      simp only [List.length_cons, Nat.add_right_cancel_iff] at h
      by_cases hab : a = b
      · subst hab
        obtain ⟨hiff, hfirst⟩ := memcmp_spec h
        refine ⟨by simp [memcmp, hiff], fun hne => ?_⟩
        obtain ⟨i, hi, hb, htake, hdiff, hval⟩ := hfirst (fun h' => hne (by rw [h']))
        exact ⟨i + 1, by simp [hi], by simp [hb], by simp [htake], by simpa using hdiff,
          by simpa [memcmp] using hval⟩
      · refine ⟨⟨fun h0 => absurd h0 (memcmp_cons_ne as bs hab), fun h' => absurd (List.cons.inj h').1 hab⟩,
          fun _ => ⟨0, by simp, by simp, rfl, hab, by simp [memcmp, hab]⟩⟩
  | [], _ :: _, h => by simp at h
  | _ :: _, [], h => by simp at h

/-- At the first place two runs differ, `memcmp` is the difference of their bytes there. -/
theorem memcmp_of_take_eq : ∀ {as bs : List UInt8} {i : ℕ}, as.take i = bs.take i →
    i < as.length → i < bs.length → as.getD i 0 ≠ bs.getD i 0 →
    memcmp as bs = ((as.getD i 0).toNat : ℤ) - (bs.getD i 0).toNat
  | a :: as, b :: bs, 0, _, _, _, hne => by
      simp only [List.getD_cons_zero] at hne ⊢
      rw [memcmp, if_neg hne]
  | a :: as, b :: bs, i + 1, htake, hi, hb, hne => by
      simp only [List.take_succ_cons, List.cons.injEq] at htake
      obtain ⟨rfl, htake⟩ := htake
      simp only [List.getD_cons_succ, List.length_cons, Nat.add_lt_add_iff_right] at hne hi hb ⊢
      rw [memcmp, if_pos rfl]
      exact memcmp_of_take_eq htake hi hb hne
  | [], _, _, _, hi, _, _ => absurd hi (Nat.not_lt_zero _)
  | _ :: _, [], _, _, _, hb, _ => absurd hb (Nat.not_lt_zero _)

/-! ## Walks over the pieces -/

/-- A callback called on the pieces in turn, threading its state `σ`: each call returns what
the piece then holds and a code, and the walk stops after the first non-zero code. The result
is the final state, what the pieces called hold after their calls, and the last code. -/
def iterPieces (f : σ → β → σ × γ × ℤ) : σ → List β → σ × List γ × ℤ
  | st, [] => (st, [], 0)
  | st, p :: ps =>
    let c := f st p
    if c.2.2 = 0 then
      let rest := iterPieces f c.1 ps
      (rest.1, c.2.1 :: rest.2.1, rest.2.2)
    else (c.1, [c.2.1], c.2.2)

/-- A walk whose callback stores nothing over its pieces leaves each piece it called as it was:
the pieces called are the first ones. -/
theorem iterPieces_of_readonly (f : σ → β → σ × β × ℤ) (hf : ∀ st b, (f st b).2.1 = b) :
    ∀ (st : σ) (ps : List β), ∃ k, (iterPieces f st ps).2.1 = ps.take k
  | _, [] => ⟨0, rfl⟩
  | st, p :: ps => by
      by_cases h0 : (f st p).2.2 = 0
      · obtain ⟨k, hk⟩ := iterPieces_of_readonly f hf (f st p).1 ps
        refine ⟨k + 1, ?_⟩
        simp [iterPieces, h0, hk, hf]
      · exact ⟨1, by simp [iterPieces, h0, hf]⟩

@[simp] theorem iterPieces_nil (f : σ → β → σ × γ × ℤ) (st : σ) :
    iterPieces f st [] = (st, [], 0) := rfl

theorem iterPieces_cons (f : σ → β → σ × γ × ℤ) (st : σ) (p : β) (ps : List β) :
    iterPieces f st (p :: ps) =
      if (f st p).2.2 = 0 then
        ((iterPieces f (f st p).1 ps).1, (f st p).2.1 :: (iterPieces f (f st p).1 ps).2.1,
          (iterPieces f (f st p).1 ps).2.2)
      else ((f st p).1, [(f st p).2.1], (f st p).2.2) := rfl

/-! ## Walks over columns in lockstep -/

/-- A callback walked over columns cut by the lengths `ns`, beside one more column it only
reads: each turn hands it the next piece of every column and of the read-only one, and gets
back what the pieces of the columns then hold. The result is, column by column, what the
column's pieces hold after the walk. -/
def walkColsWith (g : List (List α) → List α → List (List α)) :
    List ℕ → List (List α) → List α → List (List α)
  | [], cols, _ => cols.map fun _ => []
  | n :: ns, cols, d =>
    List.zipWith (· ++ ·) (g (cols.map (·.take n)) (d.take n))
      (walkColsWith g ns (cols.map (·.drop n)) (d.drop n))

/-- A callback walked over two groups of columns cut by the lengths `ns`: each turn hands it the
next piece of every column of both groups and gets back what they then hold. -/
def walkCols2 (g : List (List α) → List (List α) → List (List α) × List (List α)) :
    List ℕ → List (List α) → List (List α) → List (List α) × List (List α)
  | [], xs, cs => (xs.map fun _ => [], cs.map fun _ => [])
  | n :: ns, xs, cs =>
    let r := g (xs.map (·.take n)) (cs.map (·.take n))
    let w := walkCols2 g ns (xs.map (·.drop n)) (cs.map (·.drop n))
    (List.zipWith (· ++ ·) r.1 w.1, List.zipWith (· ++ ·) r.2 w.2)

end Buffer
