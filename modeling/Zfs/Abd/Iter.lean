import Zfs.Lib.Buffer

/-!
# Abd/Iter — ABDs, their sub-ABDs, and the iterators that walk them (`abd.c`)

An ABD (`abd_t`) holds `abd_size` bytes, in one linear buffer or laid over the chunks of a
scatterlist from `abd_offset` on. What the rest of ZFS sees of it is `Abd.bytes`: the
`abd_size` bytes from `abd_offset` on, across the chunks. A sub-ABD (`abd_get_offset_impl`)
starts at the chunk its first byte falls in; an iterator (`struct abd_iter`) keeps a position,
a current chunk and an offset into it that includes `abd_offset`, maps the rest of the chunk
clipped to what is left of the ABD, and steps over every chunk it has passed when it advances.

`AbdIter.At it p` says the iterator stands at byte `p` of its ABD. It is all a walk needs:
what is mapped there is the next bytes of `Abd.bytes`, a store through the mapping is a write at
`p`, and an advance by at most the mapped size leaves the iterator at the new byte.

* `bytes_abdGetOffsetSize`, `bytes_abdGetOffset` — a sub-ABD's bytes are the window of its
  parent's, and it is well formed, so sub-ABDs of sub-ABDs are too;
* `AbdIter.Points.advance`, `AbdIter.At.read`, `AbdIter.At.write` — one turn of a walk;
* **`abdIterateFunc_pieces`** — `abd_iterate_func` is a walk of the callback over a cutting of
  the range into non-empty pieces, each store a write of the range;
* **`abdIterateFunc2_pieces`** — `abd_iterate_func2` walks two ranges by one cutting.
-/

namespace Zfs

open Buffer

/-! ## ABDs (`sys/abd.h`) -/

/-- The data of an ABD (`abd_u`): a linear buffer from `abd_buf` on, or the chunks of the
scatterlist from `abd_sgl` on with `abd_offset` into the first. -/
inductive AbdU
  | linear (abdBuf : List UInt8)
  | scatter (abdSgl : List (List UInt8)) (abdOffset : ℕ)
  deriving DecidableEq, Repr

/-- `abd_t`: its size and its data; `ABD_FLAG_LINEAR` says which `abd_u` is. -/
structure Abd where
  abdSize : ℕ
  abdU : AbdU
  deriving DecidableEq, Repr

namespace AbdU

/-- The bytes the data lies in: the buffer, or the chunks one after another. -/
def flat : AbdU → List UInt8
  | linear buf => buf
  | scatter sgl _ => sgl.flatten

/-- Where the first byte of the ABD lies in `flat`. -/
def start : AbdU → ℕ
  | linear _ => 0
  | scatter _ off => off

/-- The lengths of the chunks; a linear buffer is one chunk. -/
def lens : AbdU → List ℕ
  | linear buf => [buf.length]
  | scatter sgl _ => sgl.map List.length

/-- How far `iter_sg` may go: past the last chunk to `NULL`; a linear ABD has no scatterlist. -/
def nents : AbdU → ℕ
  | linear _ => 0
  | scatter sgl _ => sgl.length

@[simp] theorem sum_lens (u : AbdU) : u.lens.sum = u.flat.length := by
  cases u with
  | linear buf => simp [lens, flat]
  | scatter sgl off => simp [lens, flat, List.length_flatten]

end AbdU

/-- **The bytes of an ABD**: `abd_size` of them from `abd_offset` on. -/
def Abd.bytes (abd : Abd) : List UInt8 :=
  (abd.abdU.flat.drop abd.abdU.start).take abd.abdSize

/-- A well-formed ABD: its bytes lie inside its chunks. -/
def Abd.Ok (abd : Abd) : Prop :=
  abd.abdU.start + abd.abdSize ≤ abd.abdU.flat.length

instance (abd : Abd) : Decidable abd.Ok := inferInstanceAs (Decidable (_ ≤ _))

theorem Abd.Ok.length_bytes {abd : Abd} (h : abd.Ok) : abd.bytes.length = abd.abdSize := by
  simp only [Abd.bytes, List.length_take, List.length_drop]
  unfold Abd.Ok at h
  omega

/-! ## Sub-ABDs (`abd_get_offset_impl`) -/

/-- The loop of `abd_get_offset_impl` over the chunks: the chunks from the one the new offset
falls in, and the offset into it. -/
def abdGetOffsetWalk : List (List UInt8) → ℕ → List (List UInt8) × ℕ
  | [], newOffset => ([], newOffset)
  | sg :: sgs, newOffset =>
    if newOffset < sg.length then (sg :: sgs, newOffset)
    else abdGetOffsetWalk sgs (newOffset - sg.length)

/-- `abd_get_offset_impl`: an ABD of `size` bytes over the same data, from byte `off` on. -/
def abdGetOffsetImpl (sabd : Abd) (off size : ℕ) : Abd :=
  match sabd.abdU with
  | .linear abdBuf => ⟨size, .linear (abdBuf.drop off)⟩
  | .scatter abdSgl abdOffset =>
    let w := abdGetOffsetWalk abdSgl (abdOffset + off)
    ⟨size, .scatter w.1 w.2⟩

/-- `abd_get_offset`: the rest of the ABD from `off` on; `VERIFY3U(size, >, 0)` panics (`none`)
when nothing is left. -/
def abdGetOffset (sabd : Abd) (off : ℕ) : Option Abd :=
  let size := if sabd.abdSize > off then sabd.abdSize - off else 0
  if size > 0 then some (abdGetOffsetImpl sabd off size) else none

/-- `abd_get_offset_size`. -/
def abdGetOffsetSize (sabd : Abd) (off size : ℕ) : Abd :=
  abdGetOffsetImpl sabd off size

/-- The walk keeps the bytes from the offset on, and steps over whole chunks only. -/
theorem abdGetOffsetWalk_spec : ∀ (sgl : List (List UInt8)) (o : ℕ),
    ∃ skipped : List UInt8, sgl.flatten = skipped ++ (abdGetOffsetWalk sgl o).1.flatten ∧
      skipped.length + (abdGetOffsetWalk sgl o).2 = o
  | [], o => ⟨[], by simp [abdGetOffsetWalk]⟩
  | sg :: sgs, o => by
      by_cases hin : o < sg.length
      · refine ⟨[], ?_, ?_⟩ <;> simp [abdGetOffsetWalk, hin]
      · obtain ⟨skipped, hflat, hlen⟩ := abdGetOffsetWalk_spec sgs (o - sg.length)
        refine ⟨sg ++ skipped, ?_, ?_⟩
        · simp [abdGetOffsetWalk, hin, hflat]
        · simp only [abdGetOffsetWalk, hin, if_false, List.length_append]
          omega

/-- A sub-ABD lies in the same bytes as its parent, less those before its first chunk. -/
theorem abdGetOffsetImpl_flat (sabd : Abd) (off size : ℕ)
    (h : sabd.abdU.start + off ≤ sabd.abdU.flat.length) :
    ∃ skipped : List UInt8, sabd.abdU.flat = skipped ++ (abdGetOffsetImpl sabd off size).abdU.flat ∧
      skipped.length + (abdGetOffsetImpl sabd off size).abdU.start = sabd.abdU.start + off := by
  cases hu : sabd.abdU with
  | linear buf =>
    rw [hu] at h
    refine ⟨buf.take off, ?_, ?_⟩
    · simp [abdGetOffsetImpl, hu, AbdU.flat]
    · simp only [AbdU.start, AbdU.flat] at h
      simp [abdGetOffsetImpl, hu, AbdU.start]
      omega
  | scatter sgl o =>
    obtain ⟨skipped, hflat, hlen⟩ := abdGetOffsetWalk_spec sgl (o + off)
    exact ⟨skipped, by simpa [abdGetOffsetImpl, hu, AbdU.flat] using hflat,
      by simpa [abdGetOffsetImpl, hu, AbdU.start] using hlen⟩

/-- **A sub-ABD's bytes are the window of its parent's.** -/
theorem bytes_abdGetOffsetSize {sabd : Abd} (hok : sabd.Ok) {off size : ℕ}
    (hsize : off + size ≤ sabd.abdSize) :
    (abdGetOffsetSize sabd off size).bytes = (sabd.bytes.drop off).take size ∧
      (abdGetOffsetSize sabd off size).Ok := by
  unfold Abd.Ok at hok
  obtain ⟨skipped, hflat, hlen⟩ := abdGetOffsetImpl_flat sabd off size (by omega)
  have hsub : (abdGetOffsetSize sabd off size).abdSize = size := by
    unfold abdGetOffsetSize abdGetOffsetImpl
    split <;> rfl
  constructor
  · rw [Abd.bytes, Abd.bytes, take_drop_take hsize, List.drop_drop, hflat, ← hlen, hsub]
    simp only [abdGetOffsetSize, List.drop_length_add_append]
  · have hl := congrArg List.length hflat
    rw [List.length_append] at hl
    unfold Abd.Ok
    rw [hsub]
    simp only [abdGetOffsetSize]
    omega

/-- `abd_get_offset` panics exactly when nothing is left from `off` on, and otherwise gives the
rest of the bytes. -/
theorem bytes_abdGetOffset {sabd : Abd} (hok : sabd.Ok) (off : ℕ) :
    (abdGetOffset sabd off = none ↔ sabd.abdSize ≤ off) ∧
      ∀ abd, abdGetOffset sabd off = some abd → abd.bytes = sabd.bytes.drop off ∧ abd.Ok := by
  by_cases hoff : off < sabd.abdSize
  · have hsize : off + (sabd.abdSize - off) ≤ sabd.abdSize := by omega
    have hsome : abdGetOffset sabd off = some (abdGetOffsetSize sabd off (sabd.abdSize - off)) := by
      simp [abdGetOffset, abdGetOffsetSize, hoff, Nat.sub_pos_of_lt hoff]
    obtain ⟨hbytes, hsub⟩ := bytes_abdGetOffsetSize hok hsize
    refine ⟨by simp [hsome]; omega, fun abd habd => ?_⟩
    rw [hsome, Option.some.injEq] at habd
    subst habd
    refine ⟨?_, hsub⟩
    rw [hbytes, List.take_of_length_le]
    simp [hok.length_bytes]
  · have hnone : abdGetOffset sabd off = none := by
      simp [abdGetOffset, hoff]
    simp [hnone]
    omega

/-! ## Iterators (`struct abd_iter`) -/

/-- `struct abd_iter` without its mapping: the ABD it walks (`iter_abd`), `iter_pos`,
`iter_offset` (which includes `abd_offset`) and `iter_sg` as the index of the current chunk. -/
structure AbdIter where
  iterAbd : Abd
  iterPos : ℕ
  iterOffset : ℕ
  iterSg : ℕ
  deriving DecidableEq, Repr

/-- `abd_iter_init`. -/
def abdIterInit (abd : Abd) : AbdIter :=
  match abd.abdU with
  | .linear _ => ⟨abd, 0, 0, 0⟩
  | .scatter _ abdOffset => ⟨abd, 0, abdOffset, 0⟩

/-- The loop of `abd_iter_advance` over the chunks from `iter_sg` on (`sgs`, the first of them
chunk `i`): it steps past every chunk the offset has reached the end of, and stops at the end
of the scatterlist (`sg_next` is `NULL`). -/
def abdIterSkip : List (List UInt8) → ℕ → ℕ → ℕ × ℕ
  | [], offset, i => (offset, i)
  | sg :: sgs, offset, i =>
    if offset ≥ sg.length then abdIterSkip sgs (offset - sg.length) (i + 1) else (offset, i)

/-- `abd_iter_advance`: nothing once the walk is over. -/
def abdIterAdvance (aiter : AbdIter) (amount : ℕ) : AbdIter :=
  if aiter.iterPos = aiter.iterAbd.abdSize then aiter
  else
    match aiter.iterAbd.abdU with
    | .linear _ =>
      { aiter with iterPos := aiter.iterPos + amount, iterOffset := aiter.iterOffset + amount }
    | .scatter abdSgl _ =>
      let s := abdIterSkip (abdSgl.drop aiter.iterSg) (aiter.iterOffset + amount) aiter.iterSg
      { aiter with iterPos := aiter.iterPos + amount, iterOffset := s.1, iterSg := s.2 }

/-- `iter_mapsize` after `abd_iter_map`: the rest of the chunk, clipped to the rest of the ABD;
nothing once the walk is over. -/
def abdIterMapsize (aiter : AbdIter) : ℕ :=
  if aiter.iterPos = aiter.iterAbd.abdSize then 0
  else
    match aiter.iterAbd.abdU with
    | .linear _ => aiter.iterAbd.abdSize - aiter.iterOffset
    | .scatter abdSgl _ =>
      min ((abdSgl.getD aiter.iterSg []).length - aiter.iterOffset)
        (aiter.iterAbd.abdSize - aiter.iterPos)

/-- The `len` bytes at `iter_mapaddr`. -/
def abdIterRead (aiter : AbdIter) (len : ℕ) : List UInt8 :=
  match aiter.iterAbd.abdU with
  | .linear abdBuf => (abdBuf.drop aiter.iterOffset).take len
  | .scatter abdSgl _ => ((abdSgl.getD aiter.iterSg []).drop aiter.iterOffset).take len

/-- A store of `xs` at `iter_mapaddr`, into the ABD's data. -/
def abdIterWrite (aiter : AbdIter) (xs : List UInt8) : AbdIter :=
  match aiter.iterAbd.abdU with
  | .linear abdBuf =>
    { aiter with iterAbd := { aiter.iterAbd with abdU := .linear (writeAt abdBuf aiter.iterOffset xs) } }
  | .scatter abdSgl abdOffset =>
    { aiter with iterAbd := { aiter.iterAbd with
        abdU := .scatter (abdSgl.modify aiter.iterSg (writeAt · aiter.iterOffset xs)) abdOffset } }

/-! ## An iterator at a byte -/

namespace AbdIter

variable {it : AbdIter} {p : ℕ}

/-- The iterator points at byte `p` of its ABD: `iter_pos` is `p`, and `iter_sg` and
`iter_offset` point at the byte `abd_offset + p` of the chunks. -/
structure Points (it : AbdIter) (p : ℕ) : Prop where
  ok : it.iterAbd.Ok
  pos : it.iterPos = p
  le : p ≤ it.iterAbd.abdSize
  sg : it.iterSg ≤ it.iterAbd.abdU.nents
  offset : (it.iterAbd.abdU.lens.take it.iterSg).sum + it.iterOffset = it.iterAbd.abdU.start + p

/-- It stands at byte `p`: it points there, and unless the walk is over its offset lies inside
the current chunk, as `abd_iter_advance` leaves it. -/
structure At (it : AbdIter) (p : ℕ) : Prop extends it.Points p where
  inside : p < it.iterAbd.abdSize → it.iterOffset < it.iterAbd.abdU.lens.getD it.iterSg 0

end AbdIter

@[simp] theorem abdIterInit_iterAbd (abd : Abd) : (abdIterInit abd).iterAbd = abd := by
  unfold abdIterInit
  split <;> rfl

theorem abdIterInit_points {abd : Abd} (h : abd.Ok) : (abdIterInit abd).Points 0 := by
  unfold abdIterInit
  cases hu : abd.abdU with
  | linear buf => exact ⟨h, rfl, Nat.zero_le _, by simp [hu, AbdU.nents], by simp [hu, AbdU.start]⟩
  | scatter sgl o => exact ⟨h, rfl, Nat.zero_le _, by simp [hu, AbdU.nents], by simp [hu, AbdU.start]⟩

@[simp] theorem abdIterAdvance_iterAbd (aiter : AbdIter) (amount : ℕ) :
    (abdIterAdvance aiter amount).iterAbd = aiter.iterAbd := by
  unfold abdIterAdvance
  split
  · rfl
  · split <;> rfl

/-- The skip loop keeps the byte it points at, and stops inside a chunk unless it reaches the
end of the chunks. -/
theorem abdIterSkip_spec {L : List ℕ} : ∀ {sgs : List (List UInt8)} {o i : ℕ},
    sgs.map List.length = L.drop i → i ≤ L.length →
    (L.take (abdIterSkip sgs o i).2).sum + (abdIterSkip sgs o i).1 = (L.take i).sum + o ∧
      (abdIterSkip sgs o i).2 ≤ L.length ∧
      ((L.take i).sum + o < L.sum → (abdIterSkip sgs o i).1 < L.getD (abdIterSkip sgs o i).2 0)
  | [], o, i, hsgs, hi => by
      have hend : i = L.length := by
        have := List.drop_eq_nil_iff.mp (by simpa using hsgs.symm)
        omega
      subst hend
      simp [abdIterSkip]
  | sg :: sgs, o, i, hsgs, hi => by
      have hlt : i < L.length := by
        by_contra hge
        rw [List.drop_eq_nil_of_le (by omega)] at hsgs
        exact List.cons_ne_nil _ _ hsgs
      rw [List.drop_eq_getElem_cons hlt, List.map_cons] at hsgs
      obtain ⟨hsg, hrest⟩ := List.cons.inj hsgs
      have hsum : (L.take (i + 1)).sum = (L.take i).sum + L[i] := by
        rw [List.take_add_one, List.sum_append, List.getElem?_eq_getElem hlt]
        simp
      by_cases hin : o ≥ sg.length
      · rw [abdIterSkip, if_pos hin]
        obtain ⟨h1, h2, h3⟩ := abdIterSkip_spec (o := o - sg.length) hrest hlt
        exact ⟨by omega, h2, fun h => h3 (by omega)⟩
      · rw [abdIterSkip, if_neg hin]
        refine ⟨rfl, by omega, fun _ => ?_⟩
        rw [List.getD_eq_getElem?_getD, List.getElem?_eq_getElem hlt, Option.getD_some]
        omega

/-- **An advance from a byte by no more than is left stands at the byte that far on.** -/
theorem AbdIter.Points.advance {it : AbdIter} {p amount : ℕ} (h : it.Points p)
    (hle : p + amount ≤ it.iterAbd.abdSize) : (abdIterAdvance it amount).At (p + amount) := by
  by_cases hend : it.iterPos = it.iterAbd.abdSize
  · have h0 : amount = 0 := by have := h.pos; omega
    subst h0
    rw [abdIterAdvance, if_pos hend]
    exact ⟨h, fun hp => absurd hp (by have := h.pos; omega)⟩
  · obtain ⟨hok, hpos, -, hsg, hoff⟩ := h
    unfold Abd.Ok at hok
    rw [abdIterAdvance, if_neg hend]
    cases hu : it.iterAbd.abdU with
    | linear buf =>
      simp only [hu, AbdU.nents, Nat.le_zero] at hsg hoff hok
      simp only [hsg, AbdU.lens, List.take_zero, List.sum_nil, AbdU.start, Nat.zero_add] at hoff
      refine ⟨⟨?_, ?_, hle, ?_, ?_⟩, ?_⟩ <;>
        simp [hu, hsg, AbdU.nents, AbdU.lens, AbdU.start, AbdU.flat, Abd.Ok] at * <;> omega
    | scatter sgl o =>
      simp only [hu] at hsg hoff hok
      have hmap : (sgl.drop it.iterSg).map List.length = (sgl.map List.length).drop it.iterSg :=
        List.map_drop
      obtain ⟨h1, h2, h3⟩ := abdIterSkip_spec (o := it.iterOffset + amount) hmap
        (by simpa [AbdU.nents] using hsg)
      refine ⟨⟨?_, ?_, hle, ?_, ?_⟩, ?_⟩
      · simpa [Abd.Ok, hu] using hok
      · simp [hpos]
      · simpa [hu, AbdU.nents] using h2
      · simp only [hu, AbdU.lens, AbdU.start] at hoff ⊢
        omega
      · intro hp
        simp only [hu, AbdU.lens, AbdU.start, AbdU.flat] at hoff hok hp ⊢
        refine h3 ?_
        rw [← List.length_flatten]
        omega

/-! ## One turn of a walk -/

section Turn

variable {it : AbdIter} {p : ℕ}

@[simp] theorem abdIterWrite_iterPos (xs : List UInt8) : (abdIterWrite it xs).iterPos = it.iterPos := by
  unfold abdIterWrite; split <;> rfl

@[simp] theorem abdIterWrite_iterOffset (xs : List UInt8) :
    (abdIterWrite it xs).iterOffset = it.iterOffset := by
  unfold abdIterWrite; split <;> rfl

@[simp] theorem abdIterWrite_iterSg (xs : List UInt8) : (abdIterWrite it xs).iterSg = it.iterSg := by
  unfold abdIterWrite; split <;> rfl

@[simp] theorem abdIterWrite_abdSize (xs : List UInt8) :
    (abdIterWrite it xs).iterAbd.abdSize = it.iterAbd.abdSize := by
  unfold abdIterWrite; split <;> rfl

@[simp] theorem abdIterWrite_start (xs : List UInt8) :
    (abdIterWrite it xs).iterAbd.abdU.start = it.iterAbd.abdU.start := by
  unfold abdIterWrite; split <;> simp [AbdU.start, *]

@[simp] theorem abdIterWrite_nents (xs : List UInt8) :
    (abdIterWrite it xs).iterAbd.abdU.nents = it.iterAbd.abdU.nents := by
  unfold abdIterWrite; split <;> simp [AbdU.nents, *]

/-- A store inside the current chunk keeps the chunks' lengths. -/
theorem lens_abdIterWrite {xs : List UInt8} (hsg : it.iterSg ≤ it.iterAbd.abdU.nents)
    (h : it.iterOffset + xs.length ≤ it.iterAbd.abdU.lens.getD it.iterSg 0) :
    (abdIterWrite it xs).iterAbd.abdU.lens = it.iterAbd.abdU.lens := by
  unfold abdIterWrite
  split
  · next buf hu =>
    simp only [hu, AbdU.nents, Nat.le_zero] at hsg
    simp only [hu, hsg, AbdU.lens, List.getD_cons_zero] at h ⊢
    rw [length_writeAt h]
  · next sgl o hu =>
    simp only [hu, AbdU.lens, ← length_getD] at h ⊢
    exact map_length_modify_writeAt h

theorem abdIterWrite_nil (aiter : AbdIter) : abdIterWrite aiter [] = aiter := by
  unfold abdIterWrite
  split
  · next buf hu => simp [← hu]
  · next sgl o hu =>
    have hid : (sgl.modify aiter.iterSg (writeAt · aiter.iterOffset [])) = sgl := by
      simp only [writeAt_nil]
      exact List.modify_id _ _
    rw [hid, ← hu]

theorem AbdIter.At.mapsize_eq (h : it.At p) (hp : p < it.iterAbd.abdSize) :
    abdIterMapsize it =
      min (it.iterAbd.abdU.lens.getD it.iterSg 0 - it.iterOffset) (it.iterAbd.abdSize - p) := by
  have hend : it.iterPos ≠ it.iterAbd.abdSize := by rw [h.pos]; omega
  have hok := h.ok
  have hoff := h.offset
  have hsg := h.sg
  unfold Abd.Ok at hok
  rw [abdIterMapsize, if_neg hend]
  cases hu : it.iterAbd.abdU with
  | linear buf =>
    simp only [hu, AbdU.nents, Nat.le_zero] at hsg hoff hok
    simp only [hsg, AbdU.lens, List.take_zero, List.sum_nil, AbdU.start, Nat.zero_add] at hoff
    simp only [AbdU.flat] at hok
    simp only [hsg, AbdU.lens, List.getD_cons_zero]
    omega
  | scatter sgl o =>
    simp only [AbdU.lens]
    rw [length_getD, h.pos]

theorem AbdIter.At.mapsize_le (h : it.At p) : abdIterMapsize it ≤ it.iterAbd.abdSize - p := by
  by_cases hp : p < it.iterAbd.abdSize
  · rw [h.mapsize_eq hp]
    exact Nat.min_le_right _ _
  · have hend : it.iterPos = it.iterAbd.abdSize := by have := h.le; rw [h.pos]; omega
    rw [abdIterMapsize, if_pos hend]
    exact Nat.zero_le _

theorem AbdIter.At.mapsize_pos (h : it.At p) (hp : p < it.iterAbd.abdSize) :
    0 < abdIterMapsize it := by
  rw [h.mapsize_eq hp]
  have := h.inside hp
  omega

/-- **What is mapped is the next bytes of the ABD.** -/
theorem AbdIter.At.read (h : it.At p) {len : ℕ} (hlen : len ≤ abdIterMapsize it) :
    abdIterRead it len = (it.iterAbd.bytes.drop p).take len := by
  rcases Nat.eq_zero_or_pos len with rfl | hpos
  · unfold abdIterRead
    split <;> simp
  have hp : p < it.iterAbd.abdSize := by have := h.mapsize_le; omega
  rw [h.mapsize_eq hp] at hlen
  have hoff := h.offset
  have hsg := h.sg
  rw [Abd.bytes, take_drop_take (by omega), List.drop_drop]
  cases hu : it.iterAbd.abdU with
  | linear buf =>
    simp only [hu, AbdU.nents, Nat.le_zero] at hsg hoff
    simp only [hsg, AbdU.lens, List.take_zero, List.sum_nil, AbdU.start, Nat.zero_add] at hoff
    simp [abdIterRead, hu, AbdU.flat, AbdU.start, hoff]
  | scatter sgl o =>
    simp only [hu, AbdU.lens, AbdU.start] at hoff hlen
    simp only [abdIterRead, hu, AbdU.flat, AbdU.start]
    rw [take_drop_getD (by rw [length_getD]; omega), length_flatten_take, hoff]

/-- A store inside the current chunk writes the bytes the chunks lie in at the byte the iterator
points at. -/
theorem AbdIter.Points.flat_write (h : it.Points p) {xs : List UInt8}
    (hxs : it.iterOffset + xs.length ≤ it.iterAbd.abdU.lens.getD it.iterSg 0) :
    (abdIterWrite it xs).iterAbd.abdU.flat =
      writeAt it.iterAbd.abdU.flat (it.iterAbd.abdU.start + p) xs := by
  have hoff := h.offset
  have hsg := h.sg
  unfold abdIterWrite
  split
  · next buf hu =>
    simp only [hu, AbdU.nents, Nat.le_zero] at hsg hoff
    simp only [hsg, AbdU.lens, List.take_zero, List.sum_nil, AbdU.start, Nat.zero_add] at hoff
    simp [AbdU.flat, AbdU.start, hoff, hu]
  · next sgl o hu =>
    simp only [hu, AbdU.lens, AbdU.start, ← length_getD] at hoff hxs
    simp only [AbdU.flat, AbdU.start, hu]
    rw [flatten_modify_writeAt hxs, length_flatten_take, hoff]

/-- **A store through the mapping is a write of the ABD's bytes at the iterator's byte**, and
the iterator still stands there. -/
theorem AbdIter.At.write (h : it.At p) {xs : List UInt8} (hlen : xs.length ≤ abdIterMapsize it) :
    (abdIterWrite it xs).At p ∧ (abdIterWrite it xs).iterAbd.bytes = writeAt it.iterAbd.bytes p xs := by
  rcases Nat.eq_zero_or_pos xs.length with h0 | hpos
  · simp [List.eq_nil_of_length_eq_zero h0, abdIterWrite_nil, h]
  have hp : p < it.iterAbd.abdSize := by have := h.mapsize_le; omega
  rw [h.mapsize_eq hp] at hlen
  have hlens : (abdIterWrite it xs).iterAbd.abdU.lens = it.iterAbd.abdU.lens :=
    lens_abdIterWrite h.sg (by omega)
  have hok := h.ok
  have hoff := h.offset
  unfold Abd.Ok at hok
  refine ⟨⟨⟨?_, ?_, ?_, ?_, ?_⟩, ?_⟩, ?_⟩
  · unfold Abd.Ok
    rw [← AbdU.sum_lens, hlens, AbdU.sum_lens, abdIterWrite_start, abdIterWrite_abdSize]
    exact hok
  · simp [h.pos]
  · simpa using h.le
  · simpa using h.sg
  · simpa [hlens] using hoff
  · simpa [hlens] using h.inside
  · unfold Abd.bytes
    rw [abdIterWrite_start, abdIterWrite_abdSize, h.flat_write (by omega),
      take_drop_writeAt_add (by omega) hok]

/-- `abd'` is `abd` with `xs` written at byte `p`. -/
structure Abd.Written (abd : Abd) (p : ℕ) (xs : List UInt8) (abd' : Abd) : Prop where
  ok : abd'.Ok
  size : abd'.abdSize = abd.abdSize
  bytes : abd'.bytes = writeAt abd.bytes p xs

theorem Abd.Written.refl {abd : Abd} (h : abd.Ok) (p : ℕ) : abd.Written p [] abd :=
  ⟨h, rfl, (writeAt_nil _ _).symm⟩

/-- Two adjacent writes are one. -/
theorem Abd.Written.trans {abd abd₁ abd₂ : Abd} {p : ℕ} {xs ys : List UInt8}
    (h₁ : abd.Written p xs abd₁) (h₂ : abd₁.Written (p + xs.length) ys abd₂) (hok : abd.Ok)
    (hp : p + xs.length ≤ abd.abdSize) : abd.Written p (xs ++ ys) abd₂ :=
  ⟨h₂.ok, h₂.size.trans h₁.size, by
    rw [h₂.bytes, h₁.bytes, writeAt_writeAt (by rw [hok.length_bytes]; exact hp)]⟩

/-- **One turn of a walk** through a window of `size` bytes from `p`: the `len` bytes mapped are
the window's first, the store of `xs` over them writes the ABD at `p`, and the advance stands at
`p + len` with the rest of the window ahead. -/
theorem AbdIter.At.turn (h : it.At p) {len size : ℕ} {xs : List UInt8}
    (hlen : len ≤ abdIterMapsize it) (hsize : len ≤ size) (hxs : xs.length = len) :
    abdIterRead it len = ((it.iterAbd.bytes.drop p).take size).take len ∧
      it.iterAbd.Written p xs (abdIterWrite it xs).iterAbd ∧
      (abdIterAdvance (abdIterWrite it xs) len).At (p + len) ∧
      ((abdIterWrite it xs).iterAbd.bytes.drop (p + len)).take (size - len) =
        ((it.iterAbd.bytes.drop p).take size).drop len := by
  obtain ⟨hw, hbytes⟩ := h.write (hxs ▸ hlen)
  have hle : p + len ≤ it.iterAbd.abdSize := by
    have := h.mapsize_le
    have := h.le
    omega
  refine ⟨?_, ⟨hw.ok, abdIterWrite_abdSize _, hbytes⟩,
    hw.toPoints.advance (by rw [abdIterWrite_abdSize]; exact hle), ?_⟩
  · rw [h.read hlen, List.take_take, Nat.min_eq_left hsize]
  · rw [hbytes, ← hxs, drop_take_writeAt (by rw [h.ok.length_bytes]; omega)]

end Turn

/-! ## `abd_iterate_func` -/

/-- An `abd_iter_func_t` with its `private` data: handed the mapped bytes, it may store over
them; it gives back its data, what the bytes then hold, and its return code. -/
structure AbdIterFunc (σ : Type) where
  func : σ → List UInt8 → σ × List UInt8 × ℤ
  length_func : ∀ st buf, (func st buf).2.1.length = buf.length

/-- The loop of `abd_iterate_func`, from `aiter` with `size` bytes left and the callback's data
`st`; `fuel` bounds the turns. -/
def abdIterateFuncLoop {σ : Type} (f : AbdIterFunc σ) :
    ℕ → AbdIter → ℕ → σ → Option (Abd × σ × ℤ)
  | fuel, aiter, size, st =>
    if size = 0 then some (aiter.iterAbd, st, 0)
    else
      match fuel with
      | 0 => none
      | fuel + 1 =>
        let len := min (abdIterMapsize aiter) size
        let r := f.func st (abdIterRead aiter len)
        let aiter := abdIterWrite aiter r.2.1
        if r.2.2 ≠ 0 then some (aiter.iterAbd, r.1, r.2.2)
        else abdIterateFuncLoop f fuel (abdIterAdvance aiter len) (size - len) r.1

/-- `abd_iterate_func`: the ABD after the callback's stores, the callback's data, and the code
returned. -/
def abdIterateFunc {σ : Type} (abd : Abd) (off size : ℕ) (f : AbdIterFunc σ) (st : σ) :
    Option (Abd × σ × ℤ) :=
  abdIterateFuncLoop f size (abdIterAdvance (abdIterInit abd) off) size st

theorem abdIterateFuncLoop_pieces {σ : Type} (f : AbdIterFunc σ) : ∀ (fuel : ℕ) {aiter : AbdIter}
    {p size : ℕ} (st : σ), aiter.At p → size ≤ fuel → p + size ≤ aiter.iterAbd.abdSize →
    ∃ lens : List ℕ, (∀ n ∈ lens, 0 < n) ∧ lens.sum = size ∧
      let r := iterPieces f.func st (chop lens ((aiter.iterAbd.bytes.drop p).take size))
      ∃ abd', abdIterateFuncLoop f fuel aiter size st = some (abd', r.1, r.2.2) ∧
        aiter.iterAbd.Written p r.2.1.flatten abd'
  | fuel, aiter, p, size, st, h, hfuel, hsize => by
    by_cases h0 : size = 0
    · subst h0
      refine ⟨[], by simp, rfl, aiter.iterAbd, ?_, Abd.Written.refl h.ok p⟩
      rw [abdIterateFuncLoop.eq_def]
      simp
    obtain ⟨fuel, rfl⟩ : ∃ k, fuel = k + 1 := ⟨fuel - 1, by omega⟩
    -- one turn over the next `len` bytes of the window
    have hle := h.mapsize_le
    have hmap := h.mapsize_pos (by omega)
    set len := min (abdIterMapsize aiter) size with hlen
    have hlenpos : 0 < len := Nat.lt_min.mpr ⟨hmap, Nat.pos_of_ne_zero h0⟩
    set c := f.func st (((aiter.iterAbd.bytes.drop p).take size).take len) with hc
    have hclen : c.2.1.length = len := by
      rw [hc, f.length_func, List.length_take, List.length_take, List.length_drop,
        h.ok.length_bytes]
      omega
    obtain ⟨hread, hwritten, hat, htail⟩ :=
      h.turn (Nat.min_le_left _ _) (Nat.min_le_right _ _) hclen
    have hstep : abdIterateFuncLoop f (fuel + 1) aiter size st =
        if c.2.2 ≠ 0 then some ((abdIterWrite aiter c.2.1).iterAbd, c.1, c.2.2)
        else abdIterateFuncLoop f fuel (abdIterAdvance (abdIterWrite aiter c.2.1) len)
          (size - len) c.1 := by
      rw [abdIterateFuncLoop.eq_def]
      dsimp only
      rw [if_neg h0, ← hlen, hread]
    rw [hstep]
    by_cases hcode : c.2.2 = 0
    · -- the walk goes on from `p + len` over the rest of the window
      obtain ⟨lens, hpos, hsum, abd', hrun, hw'⟩ :=
        @abdIterateFuncLoop_pieces σ f fuel _ (p + len) (size - len) c.1 hat (by omega)
          (by simp only [abdIterAdvance_iterAbd, abdIterWrite_abdSize]; omega)
      simp only [abdIterAdvance_iterAbd] at hrun hw'
      rw [htail] at hrun hw'
      refine ⟨len :: lens, List.forall_mem_cons.mpr ⟨hlenpos, hpos⟩, by simp [hsum]; omega,
        abd', ?_, ?_⟩
      · rw [if_neg (not_not.mpr hcode), hrun, chop_cons, iterPieces_cons, ← hc, if_pos hcode]
      · rw [chop_cons, iterPieces_cons, ← hc, if_pos hcode, List.flatten_cons]
        exact hwritten.trans (by rw [hclen]; exact hw') h.ok (by omega)
    · -- the walk stops after this piece, whatever the rest of the cutting
      obtain ⟨lens, hpos, hsum⟩ := exists_pos_sum (size - len)
      refine ⟨len :: lens, List.forall_mem_cons.mpr ⟨hlenpos, hpos⟩, by simp [hsum]; omega,
        (abdIterWrite aiter c.2.1).iterAbd, ?_, ?_⟩
      · rw [if_pos hcode, chop_cons, iterPieces_cons, ← hc, if_neg hcode]
      · rw [chop_cons, iterPieces_cons, ← hc, if_neg hcode, List.flatten_singleton]
        exact hwritten

/-- The iterator a walk from byte `off` starts with stands at `off`. -/
theorem abdIterInit_advance_at {abd : Abd} (hok : abd.Ok) {off : ℕ} (hoff : off ≤ abd.abdSize) :
    (abdIterAdvance (abdIterInit abd) off).At off := by
  simpa using (abdIterInit_points hok).advance (by simpa using hoff)

/-- **`abd_iterate_func` is a walk of the callback over non-empty pieces of the range.** The
pieces concatenate to the `size` bytes from `off` on; the callback's data and the code returned
are those of `iterPieces`, which stops after the first piece whose call returns non-zero, and
the ABD is left with what those pieces hold after their calls written over the range. -/
theorem abdIterateFunc_pieces {σ : Type} (f : AbdIterFunc σ) (st : σ) {abd : Abd} (hok : abd.Ok)
    {off size : ℕ} (hsize : off + size ≤ abd.abdSize) :
    ∃ pieces : List (List UInt8), (∀ q ∈ pieces, q ≠ []) ∧
      pieces.flatten = (abd.bytes.drop off).take size ∧
      ∃ abd', abdIterateFunc abd off size f st =
          some (abd', (iterPieces f.func st pieces).1, (iterPieces f.func st pieces).2.2) ∧
        abd.Written off (iterPieces f.func st pieces).2.1.flatten abd' := by
  obtain ⟨lens, hpos, hsum, abd', hrun, hw⟩ := @abdIterateFuncLoop_pieces σ f size _ off size st
    (abdIterInit_advance_at hok (by omega)) (Nat.le_refl _) (by simpa using hsize)
  simp only [abdIterAdvance_iterAbd, abdIterInit_iterAbd] at hrun hw
  have hlen : ((abd.bytes.drop off).take size).length = size := by
    simp [hok.length_bytes]
    omega
  obtain ⟨hne, hflat⟩ := chop_pieces hpos (hsum.trans hlen.symm)
  exact ⟨_, hne, hflat, abd', hrun, hw⟩

/-! ## `abd_iterate_func2` -/

/-- An `abd_iter_func2_t` with its `private` data: handed the mapped bytes of both ABDs, of one
length, it may store over either. -/
structure AbdIterFunc2 (σ : Type) where
  func : σ → List UInt8 → List UInt8 → σ × (List UInt8 × List UInt8) × ℤ
  length_fst : ∀ st dbuf sbuf, (func st dbuf sbuf).2.1.1.length = dbuf.length
  length_snd : ∀ st dbuf sbuf, (func st dbuf sbuf).2.1.2.length = sbuf.length

/-- The callback on a pair of pieces. -/
def AbdIterFunc2.pairs {σ : Type} (f : AbdIterFunc2 σ) (st : σ) (b : List UInt8 × List UInt8) :
    σ × (List UInt8 × List UInt8) × ℤ :=
  f.func st b.1 b.2

/-- The loop of `abd_iterate_func2`: each turn maps both iterators and hands the callback the
shorter of the two mappings, clipped to what is left. -/
def abdIterateFunc2Loop {σ : Type} (f : AbdIterFunc2 σ) :
    ℕ → AbdIter → AbdIter → ℕ → σ → Option (Abd × Abd × σ × ℤ)
  | fuel, daiter, saiter, size, st =>
    if size = 0 then some (daiter.iterAbd, saiter.iterAbd, st, 0)
    else
      match fuel with
      | 0 => none
      | fuel + 1 =>
        let dlen := min (abdIterMapsize daiter) size
        let slen := min (abdIterMapsize saiter) size
        let len := min dlen slen
        let r := f.func st (abdIterRead daiter len) (abdIterRead saiter len)
        let daiter := abdIterWrite daiter r.2.1.1
        let saiter := abdIterWrite saiter r.2.1.2
        if r.2.2 ≠ 0 then some (daiter.iterAbd, saiter.iterAbd, r.1, r.2.2)
        else
          abdIterateFunc2Loop f fuel (abdIterAdvance daiter len) (abdIterAdvance saiter len)
            (size - len) r.1

/-- `abd_iterate_func2`: both ABDs after the callback's stores, its data, and the code returned. -/
def abdIterateFunc2 {σ : Type} (dabd sabd : Abd) (doff soff size : ℕ) (f : AbdIterFunc2 σ)
    (st : σ) : Option (Abd × Abd × σ × ℤ) :=
  abdIterateFunc2Loop f size (abdIterAdvance (abdIterInit dabd) doff)
    (abdIterAdvance (abdIterInit sabd) soff) size st

theorem abdIterateFunc2Loop_pieces {σ : Type} (f : AbdIterFunc2 σ) : ∀ (fuel : ℕ)
    {daiter saiter : AbdIter} {dp sp size : ℕ} (st : σ), daiter.At dp → saiter.At sp →
    size ≤ fuel → dp + size ≤ daiter.iterAbd.abdSize → sp + size ≤ saiter.iterAbd.abdSize →
    ∃ lens : List ℕ, (∀ n ∈ lens, 0 < n) ∧ lens.sum = size ∧
      let r := iterPieces f.pairs st ((chop lens ((daiter.iterAbd.bytes.drop dp).take size)).zip
        (chop lens ((saiter.iterAbd.bytes.drop sp).take size)))
      ∃ dabd' sabd', abdIterateFunc2Loop f fuel daiter saiter size st =
          some (dabd', sabd', r.1, r.2.2) ∧
        daiter.iterAbd.Written dp (r.2.1.map Prod.fst).flatten dabd' ∧
        saiter.iterAbd.Written sp (r.2.1.map Prod.snd).flatten sabd'
  | fuel, daiter, saiter, dp, sp, size, st, hd, hs, hfuel, hdsize, hssize => by
    by_cases h0 : size = 0
    · subst h0
      refine ⟨[], by simp, rfl, daiter.iterAbd, saiter.iterAbd, ?_, Abd.Written.refl hd.ok dp,
        Abd.Written.refl hs.ok sp⟩
      rw [abdIterateFunc2Loop.eq_def]
      simp
    obtain ⟨fuel, rfl⟩ : ∃ k, fuel = k + 1 := ⟨fuel - 1, by omega⟩
    -- one turn over the next `len` bytes of both windows, the shorter mapping
    have hdle := hd.mapsize_le
    have hsle := hs.mapsize_le
    have hdmap := hd.mapsize_pos (by omega)
    have hsmap := hs.mapsize_pos (by omega)
    set len := min (min (abdIterMapsize daiter) size) (min (abdIterMapsize saiter) size) with hlen
    have hlenpos : 0 < len := by omega
    set c := f.func st (((daiter.iterAbd.bytes.drop dp).take size).take len)
      (((saiter.iterAbd.bytes.drop sp).take size).take len) with hc
    have hdlen : c.2.1.1.length = len := by
      rw [hc, f.length_fst, List.length_take, List.length_take, List.length_drop,
        hd.ok.length_bytes]
      omega
    have hslen : c.2.1.2.length = len := by
      rw [hc, f.length_snd, List.length_take, List.length_take, List.length_drop,
        hs.ok.length_bytes]
      omega
    obtain ⟨hdread, hdwritten, hdat, hdtail⟩ :=
      @AbdIter.At.turn _ _ hd len size _ (by omega) (by omega) hdlen
    obtain ⟨hsread, hswritten, hsat, hstail⟩ :=
      @AbdIter.At.turn _ _ hs len size _ (by omega) (by omega) hslen
    have hstep : abdIterateFunc2Loop f (fuel + 1) daiter saiter size st =
        if c.2.2 ≠ 0 then
          some ((abdIterWrite daiter c.2.1.1).iterAbd, (abdIterWrite saiter c.2.1.2).iterAbd, c.1,
            c.2.2)
        else abdIterateFunc2Loop f fuel (abdIterAdvance (abdIterWrite daiter c.2.1.1) len)
          (abdIterAdvance (abdIterWrite saiter c.2.1.2) len) (size - len) c.1 := by
      rw [abdIterateFunc2Loop.eq_def]
      dsimp only
      rw [if_neg h0, ← hlen, hdread, hsread]
    rw [hstep]
    by_cases hcode : c.2.2 = 0
    · -- the walk goes on from `dp + len` and `sp + len`
      obtain ⟨lens, hpos, hsum, dabd', sabd', hrun, hdw, hsw⟩ :=
        @abdIterateFunc2Loop_pieces σ f fuel _ _ (dp + len) (sp + len) (size - len) c.1 hdat hsat
          (by omega) (by simp only [abdIterAdvance_iterAbd, abdIterWrite_abdSize]; omega)
          (by simp only [abdIterAdvance_iterAbd, abdIterWrite_abdSize]; omega)
      simp only [abdIterAdvance_iterAbd] at hrun hdw hsw
      rw [hdtail, hstail] at hrun hdw hsw
      refine ⟨len :: lens, List.forall_mem_cons.mpr ⟨hlenpos, hpos⟩, by simp [hsum]; omega,
        dabd', sabd', ?_, ?_, ?_⟩
      · rw [if_neg (not_not.mpr hcode), hrun, chop_cons, chop_cons, List.zip_cons_cons,
          iterPieces_cons, AbdIterFunc2.pairs, ← hc, if_pos hcode]
      · rw [chop_cons, chop_cons, List.zip_cons_cons, iterPieces_cons, AbdIterFunc2.pairs, ← hc,
          if_pos hcode, List.map_cons, List.flatten_cons]
        exact hdwritten.trans (by rw [hdlen]; exact hdw) hd.ok (by omega)
      · rw [chop_cons, chop_cons, List.zip_cons_cons, iterPieces_cons, AbdIterFunc2.pairs, ← hc,
          if_pos hcode, List.map_cons, List.flatten_cons]
        exact hswritten.trans (by rw [hslen]; exact hsw) hs.ok (by omega)
    · -- the walk stops after this pair of pieces
      obtain ⟨lens, hpos, hsum⟩ := exists_pos_sum (size - len)
      refine ⟨len :: lens, List.forall_mem_cons.mpr ⟨hlenpos, hpos⟩, by simp [hsum]; omega,
        (abdIterWrite daiter c.2.1.1).iterAbd, (abdIterWrite saiter c.2.1.2).iterAbd, ?_, ?_, ?_⟩
      · rw [if_pos hcode, chop_cons, chop_cons, List.zip_cons_cons, iterPieces_cons,
          AbdIterFunc2.pairs, ← hc, if_neg hcode]
      · rw [chop_cons, chop_cons, List.zip_cons_cons, iterPieces_cons, AbdIterFunc2.pairs, ← hc,
          if_neg hcode, List.map_singleton, List.flatten_singleton]
        exact hdwritten
      · rw [chop_cons, chop_cons, List.zip_cons_cons, iterPieces_cons, AbdIterFunc2.pairs, ← hc,
          if_neg hcode, List.map_singleton, List.flatten_singleton]
        exact hswritten

/-- **`abd_iterate_func2` walks both ranges by one cutting**: pairs of non-empty pieces of one
length that concatenate to the two ranges, handed to the callback in turn up to the first
non-zero code; each ABD is left with what its pieces called hold written over its range. -/
theorem abdIterateFunc2_pieces {σ : Type} (f : AbdIterFunc2 σ) (st : σ) {dabd sabd : Abd}
    (hdok : dabd.Ok) (hsok : sabd.Ok) {doff soff size : ℕ} (hdsize : doff + size ≤ dabd.abdSize)
    (hssize : soff + size ≤ sabd.abdSize) :
    ∃ pairs : List (List UInt8 × List UInt8), (∀ q ∈ pairs, q.1 ≠ [] ∧ q.1.length = q.2.length) ∧
      (pairs.map Prod.fst).flatten = (dabd.bytes.drop doff).take size ∧
      (pairs.map Prod.snd).flatten = (sabd.bytes.drop soff).take size ∧
      ∃ dabd' sabd', abdIterateFunc2 dabd sabd doff soff size f st =
          some (dabd', sabd', (iterPieces f.pairs st pairs).1, (iterPieces f.pairs st pairs).2.2) ∧
        dabd.Written doff ((iterPieces f.pairs st pairs).2.1.map Prod.fst).flatten dabd' ∧
        sabd.Written soff ((iterPieces f.pairs st pairs).2.1.map Prod.snd).flatten sabd' := by
  obtain ⟨lens, hpos, hsum, dabd', sabd', hrun, hdw, hsw⟩ :=
    @abdIterateFunc2Loop_pieces σ f size _ _ doff soff size st
      (abdIterInit_advance_at hdok (by omega)) (abdIterInit_advance_at hsok (by omega))
      (Nat.le_refl _) (by simpa using hdsize) (by simpa using hssize)
  simp only [abdIterAdvance_iterAbd, abdIterInit_iterAbd] at hrun hdw hsw
  have hdlen : ((dabd.bytes.drop doff).take size).length = size := by
    simp [hdok.length_bytes]
    omega
  have hslen : ((sabd.bytes.drop soff).take size).length = size := by
    simp [hsok.length_bytes]
    omega
  obtain ⟨hdne, hdflat⟩ := chop_pieces hpos (hsum.trans hdlen.symm)
  obtain ⟨-, hsflat⟩ := chop_pieces hpos (hsum.trans hslen.symm)
  have hlen : (chop lens ((dabd.bytes.drop doff).take size)).length =
      (chop lens ((sabd.bytes.drop soff).take size)).length := by
    rw [length_chop, length_chop]
  refine ⟨_, fun q hq => ⟨hdne _ (List.of_mem_zip hq).1,
      length_eq_of_mem_zip_chop (by omega) (by omega) hq⟩, ?_, ?_, dabd', sabd', hrun, hdw, hsw⟩
  · rw [List.map_fst_zip (Nat.le_of_eq hlen), hdflat]
  · rw [List.map_snd_zip (Nat.le_of_eq hlen.symm), hsflat]

end Zfs
