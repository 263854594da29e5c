import Zfs.Abd.Raidz

/-!
# Abd/Ops — copies, compares and zeroing through the ABD iterators (`abd.c`)

Every byte operation on ABDs is `abd_iterate_func` or `abd_iterate_func2` with a small callback:
`memcpy` to or from a caller's buffer that it steps through by `struct buf_arg`, `memcmp`
against it, `memset` to zero, `memcpy` and `memcmp` between two ABDs. By `abdIterateFunc_pieces`
and `abdIterateFunc2_pieces` each is the callback walked over pieces of the range, so each
result follows from what the callback does to one piece and the concatenation of the pieces.

* `abdCopyToBufOff_eq`, `abdCopyFromBufOff_eq`, `abdZeroOff_eq`, `abdCopyOff_eq` — `memcpy`
  and `memset` on the ABD's bytes;
* **`abdCmpBufOff_eq`**, **`abdCmp_eq`** — one `memcmp` of the whole ranges, so 0 exactly on
  equal ranges and otherwise the difference at the first byte that differs (`abdCmpBufOff_spec`,
  `abdCmp_spec`);
* **`abd_behaves_as_flat_buffer`** — every ABD, linear or scatter and sub-ABDs at any depth,
  behaves as its bytes under all of the above, the iterations and the RAID-Z walks.
-/

namespace Zfs

open Buffer

/-! ## Against a caller's buffer (`struct buf_arg`) -/

/-- The `n` bytes at offset `pos` of the caller's buffer. -/
def bytesAt (buf : List UInt8) (pos n : ℕ) : List UInt8 :=
  (List.range n).map fun k => buf.getD (pos + k) 0

theorem length_bytesAt (buf : List UInt8) (pos n : ℕ) : (bytesAt buf pos n).length = n := by
  simp [bytesAt]

theorem bytesAt_eq {buf : List UInt8} {pos n : ℕ} (h : pos + n ≤ buf.length) :
    bytesAt buf pos n = (buf.drop pos).take n := by
  apply List.ext_getElem (by simp [length_bytesAt]; omega)
  intro k hk _
  rw [length_bytesAt] at hk
  have hk' : pos + k < buf.length := by omega
  simp [bytesAt, List.getD_eq_getElem?_getD, List.getElem?_eq_getElem hk']

/-- `abd_copy_to_buf_off_cb`: `memcpy(arg_buf, buf, size)`, then `arg_buf += size`. The private
data is the caller's buffer and the offset `arg_buf` is at. -/
def abdCopyToBufOffCb : AbdIterFunc (List UInt8 × ℕ) where
  func ba buf := ((writeAt ba.1 ba.2 buf, ba.2 + buf.length), buf, 0)
  length_func _ _ := rfl

@[simp] theorem abdCopyToBufOffCb_func (ba : List UInt8 × ℕ) (buf : List UInt8) :
    abdCopyToBufOffCb.func ba buf = ((writeAt ba.1 ba.2 buf, ba.2 + buf.length), buf, 0) := rfl

/-- `abd_copy_to_buf_off`: the caller's buffer after the copy. -/
def abdCopyToBufOff (buf : List UInt8) (abd : Abd) (off size : ℕ) : Option (List UInt8) :=
  (abdIterateFunc abd off size abdCopyToBufOffCb (buf, 0)).map fun r => r.2.1.1

/-- `abd_cmp_buf_off_cb`: `memcmp(buf, arg_buf, size)`, then `arg_buf += size`. -/
def abdCmpBufOffCb : AbdIterFunc (List UInt8 × ℕ) where
  func ba buf := ((ba.1, ba.2 + buf.length), buf, memcmp buf (bytesAt ba.1 ba.2 buf.length))
  length_func _ _ := rfl

@[simp] theorem abdCmpBufOffCb_func (ba : List UInt8 × ℕ) (buf : List UInt8) :
    abdCmpBufOffCb.func ba buf =
      ((ba.1, ba.2 + buf.length), buf, memcmp buf (bytesAt ba.1 ba.2 buf.length)) := rfl

/-- `abd_cmp_buf_off`. -/
def abdCmpBufOff (abd : Abd) (buf : List UInt8) (off size : ℕ) : Option ℤ :=
  (abdIterateFunc abd off size abdCmpBufOffCb (buf, 0)).map fun r => r.2.2

/-- `abd_copy_from_buf_off_cb`: `memcpy(buf, arg_buf, size)`, then `arg_buf += size`. -/
def abdCopyFromBufOffCb : AbdIterFunc (List UInt8 × ℕ) where
  func ba buf := ((ba.1, ba.2 + buf.length), bytesAt ba.1 ba.2 buf.length, 0)
  length_func _ buf := length_bytesAt _ _ buf.length

@[simp] theorem abdCopyFromBufOffCb_func (ba : List UInt8 × ℕ) (buf : List UInt8) :
    abdCopyFromBufOffCb.func ba buf = ((ba.1, ba.2 + buf.length), bytesAt ba.1 ba.2 buf.length, 0) :=
  rfl

/-- `abd_copy_from_buf_off`: the ABD after the copy. -/
def abdCopyFromBufOff (abd : Abd) (buf : List UInt8) (off size : ℕ) : Option Abd :=
  (abdIterateFunc abd off size abdCopyFromBufOffCb (buf, 0)).map fun r => r.1

/-- `abd_zero_off_cb`: `memset(buf, 0, size)`. -/
def abdZeroOffCb : AbdIterFunc Unit where
  func _ buf := ((), List.replicate buf.length 0, 0)
  length_func _ _ := List.length_replicate

@[simp] theorem abdZeroOffCb_func (u : Unit) (buf : List UInt8) :
    abdZeroOffCb.func u buf = ((), List.replicate buf.length 0, 0) := rfl

/-- `abd_zero_off`. -/
def abdZeroOff (abd : Abd) (off size : ℕ) : Option Abd :=
  (abdIterateFunc abd off size abdZeroOffCb ()).map fun r => r.1

/-! ## Between two ABDs -/

/-- `abd_copy_off_cb`: `memcpy(dbuf, sbuf, size)`. -/
def abdCopyOffCb : AbdIterFunc2 Unit where
  func _ dbuf sbuf := ((), (bytesAt sbuf 0 dbuf.length, sbuf), 0)
  length_fst _ dbuf _ := length_bytesAt _ _ dbuf.length
  length_snd _ _ _ := rfl

@[simp] theorem abdCopyOffCb_pairs (u : Unit) (q : List UInt8 × List UInt8) :
    abdCopyOffCb.pairs u q = ((), (bytesAt q.2 0 q.1.length, q.2), 0) := rfl

/-- `abd_copy_off`: the destination ABD after the copy. -/
def abdCopyOff (dabd sabd : Abd) (doff soff size : ℕ) : Option Abd :=
  (abdIterateFunc2 dabd sabd doff soff size abdCopyOffCb ()).map fun r => r.1

/-- `abd_cmp_cb`: `memcmp(bufa, bufb, size)`. -/
def abdCmpCb : AbdIterFunc2 Unit where
  func _ bufa bufb := ((), (bufa, bufb), memcmp bufa bufb)
  length_fst _ _ _ := rfl
  length_snd _ _ _ := rfl

@[simp] theorem abdCmpCb_pairs (u : Unit) (q : List UInt8 × List UInt8) :
    abdCmpCb.pairs u q = ((), q, memcmp q.1 q.2) := rfl

/-- `abd_cmp`, of two ABDs of one size (`ASSERT3U(dabd->abd_size, ==, sabd->abd_size)`). -/
def abdCmp (dabd sabd : Abd) : Option ℤ :=
  (abdIterateFunc2 dabd sabd 0 0 dabd.abdSize abdCmpCb ()).map fun r => r.2.2.2

/-! ## What the callbacks do to pieces -/

theorem iterPieces_abdCopyToBufOffCb : ∀ (ps : List (List UInt8)) (buf : List UInt8) (pos : ℕ),
    pos + ps.flatten.length ≤ buf.length →
    iterPieces abdCopyToBufOffCb.func (buf, pos) ps =
      ((writeAt buf pos ps.flatten, pos + ps.flatten.length), ps, 0)
  | [], buf, pos, _ => by simp
  | q :: ps, buf, pos, h => by
      simp only [List.flatten_cons, List.length_append] at h ⊢
      rw [iterPieces_cons]
      simp only [abdCopyToBufOffCb_func, if_true]
      rw [iterPieces_abdCopyToBufOffCb ps _ _ (by rw [length_writeAt (by omega)]; omega),
        writeAt_writeAt (by omega), Nat.add_assoc]

theorem iterPieces_abdCmpBufOffCb : ∀ (ps : List (List UInt8)) (buf : List UInt8) (pos : ℕ),
    pos + ps.flatten.length ≤ buf.length →
    (iterPieces abdCmpBufOffCb.func (buf, pos) ps).2.2 =
      memcmp ps.flatten ((buf.drop pos).take ps.flatten.length)
  | [], _, _, _ => by simp [memcmp]
  | q :: ps, buf, pos, h => by
      simp only [List.flatten_cons, List.length_append] at h ⊢
      have hsplit : (buf.drop pos).take (q.length + ps.flatten.length) =
          (buf.drop pos).take q.length ++ (buf.drop (pos + q.length)).take ps.flatten.length := by
        rw [List.take_add, List.drop_drop]
      rw [hsplit, memcmp_append _ _ (by simp; omega), iterPieces_cons]
      simp only [abdCmpBufOffCb_func, bytesAt_eq (by omega : pos + q.length ≤ buf.length)]
      by_cases h0 : memcmp q ((buf.drop pos).take q.length) = 0
      · rw [if_pos h0, if_pos h0, iterPieces_abdCmpBufOffCb ps buf (pos + q.length) (by omega)]
      · rw [if_neg h0, if_neg h0]

theorem iterPieces_abdCopyFromBufOffCb : ∀ (ps : List (List UInt8)) (buf : List UInt8)
    (pos : ℕ), pos + ps.flatten.length ≤ buf.length →
    (iterPieces abdCopyFromBufOffCb.func (buf, pos) ps).2.1.flatten =
      (buf.drop pos).take ps.flatten.length
  | [], _, _, _ => by simp
  | q :: ps, buf, pos, h => by
      simp only [List.flatten_cons, List.length_append] at h ⊢
      rw [iterPieces_cons]
      simp only [abdCopyFromBufOffCb_func, if_true, List.flatten_cons]
      rw [iterPieces_abdCopyFromBufOffCb ps buf (pos + q.length) (by omega),
        bytesAt_eq (by omega), List.take_add, List.drop_drop]

theorem iterPieces_abdZeroOffCb : ∀ (ps : List (List UInt8)),
    (iterPieces abdZeroOffCb.func () ps).2.1.flatten = List.replicate ps.flatten.length 0
  | [] => by simp
  | q :: ps => by
      rw [iterPieces_cons]
      simp only [abdZeroOffCb_func, if_true, List.flatten_cons, List.length_append]
      rw [iterPieces_abdZeroOffCb ps, List.replicate_append_replicate]

theorem iterPieces_abdCopyOffCb : ∀ (ps : List (List UInt8 × List UInt8)),
    (∀ q ∈ ps, q.1.length = q.2.length) →
    ((iterPieces abdCopyOffCb.pairs () ps).2.1.map Prod.fst).flatten = (ps.map Prod.snd).flatten
  | [], _ => by simp
  | q :: ps, h => by
      rw [iterPieces_cons]
      simp only [abdCopyOffCb_pairs, if_true, List.map_cons, List.flatten_cons]
      rw [iterPieces_abdCopyOffCb ps (fun q' hq' => h q' (List.mem_cons_of_mem _ hq')),
        bytesAt_eq (by rw [h q List.mem_cons_self]; omega), List.drop_zero,
        List.take_of_length_le (Nat.le_of_eq (h q List.mem_cons_self).symm)]

theorem iterPieces_abdCmpCb : ∀ (ps : List (List UInt8 × List UInt8)),
    (∀ q ∈ ps, q.1.length = q.2.length) →
    (iterPieces abdCmpCb.pairs () ps).2.2 = memcmp (ps.map Prod.fst).flatten (ps.map Prod.snd).flatten
  | [], _ => by simp [memcmp]
  | q :: ps, h => by
      rw [iterPieces_cons, abdCmpCb_pairs, List.map_cons, List.map_cons, List.flatten_cons,
        List.flatten_cons, memcmp_append _ _ (h q List.mem_cons_self)]
      by_cases h0 : memcmp q.1 q.2 = 0
      · rw [if_pos h0, if_pos h0, iterPieces_abdCmpCb ps (fun q' hq' => h q' (List.mem_cons_of_mem _ hq'))]
      · rw [if_neg h0, if_neg h0]

/-! ## The operations -/

section Ops

variable {abd : Abd} {off size : ℕ}

theorem length_window (hok : abd.Ok) (hsize : off + size ≤ abd.abdSize) :
    ((abd.bytes.drop off).take size).length = size := by
  simp [hok.length_bytes]
  omega

/-- **`abd_copy_to_buf_off` is `memcpy(buf, bytes + off, size)`.** -/
theorem abdCopyToBufOff_eq (hok : abd.Ok) (hsize : off + size ≤ abd.abdSize) {buf : List UInt8}
    (hbuf : size ≤ buf.length) :
    abdCopyToBufOff buf abd off size = some (writeAt buf 0 ((abd.bytes.drop off).take size)) := by
  obtain ⟨pieces, -, hflat, abd', hrun, -⟩ := abdIterateFunc_pieces abdCopyToBufOffCb (buf, 0) hok hsize
  have hlen : pieces.flatten.length = size := by rw [hflat, length_window hok hsize]
  rw [abdCopyToBufOff, hrun, iterPieces_abdCopyToBufOffCb pieces buf 0 (by omega), hflat]
  rfl

/-- **`abd_cmp_buf_off` is one `memcmp` of the range against the buffer.** -/
theorem abdCmpBufOff_eq (hok : abd.Ok) (hsize : off + size ≤ abd.abdSize) {buf : List UInt8}
    (hbuf : size ≤ buf.length) :
    abdCmpBufOff abd buf off size = some (memcmp ((abd.bytes.drop off).take size) (buf.take size)) := by
  obtain ⟨pieces, -, hflat, abd', hrun, -⟩ := abdIterateFunc_pieces abdCmpBufOffCb (buf, 0) hok hsize
  have hlen : pieces.flatten.length = size := by rw [hflat, length_window hok hsize]
  rw [abdCmpBufOff, hrun, Option.map_some, iterPieces_abdCmpBufOffCb pieces buf 0 (by omega),
    hlen, hflat, List.drop_zero]

/-- **`abd_cmp_buf_off` is 0 exactly on a range equal to the buffer's first `size` bytes, and
otherwise the difference of the first two bytes that differ.** -/
theorem abdCmpBufOff_spec (hok : abd.Ok) (hsize : off + size ≤ abd.abdSize) {buf : List UInt8}
    (hbuf : size ≤ buf.length) :
    ∃ r, abdCmpBufOff abd buf off size = some r ∧
      (r = 0 ↔ (abd.bytes.drop off).take size = buf.take size) ∧
      ∀ i < size, (abd.bytes.drop off).take i = buf.take i →
        abd.bytes.getD (off + i) 0 ≠ buf.getD i 0 →
        r = ((abd.bytes.getD (off + i) 0).toNat : ℤ) - (buf.getD i 0).toNat := by
  have hlen : ((abd.bytes.drop off).take size).length = (buf.take size).length := by
    rw [length_window hok hsize, List.length_take, Nat.min_eq_left hbuf]
  refine ⟨_, abdCmpBufOff_eq hok hsize hbuf, (memcmp_spec hlen).1, fun i hi htake hne => ?_⟩
  -- the first difference of the range is the first difference of the two windows
  have hget : ((abd.bytes.drop off).take size).getD i 0 = abd.bytes.getD (off + i) 0 := by
    simp [List.getD_eq_getElem?_getD, hi]
  have hgetb : (buf.take size).getD i 0 = buf.getD i 0 := by
    simp [List.getD_eq_getElem?_getD, hi]
  rw [← hget, ← hgetb]
  refine memcmp_of_take_eq ?_ (by rw [length_window hok hsize]; exact hi) ?_ (by rwa [hget, hgetb])
  · rw [List.take_take, List.take_take, Nat.min_eq_left (Nat.le_of_lt hi)]
    exact htake
  · rw [List.length_take, Nat.min_eq_left hbuf]
    exact hi

/-- **`abd_copy_from_buf_off` is `memcpy(bytes + off, buf, size)`.** -/
theorem abdCopyFromBufOff_eq (hok : abd.Ok) (hsize : off + size ≤ abd.abdSize) {buf : List UInt8}
    (hbuf : size ≤ buf.length) :
    ∃ abd', abdCopyFromBufOff abd buf off size = some abd' ∧ abd.Written off (buf.take size) abd' := by
  obtain ⟨pieces, -, hflat, abd', hrun, hw⟩ :=
    abdIterateFunc_pieces abdCopyFromBufOffCb (buf, 0) hok hsize
  have hlen : pieces.flatten.length = size := by rw [hflat, length_window hok hsize]
  rw [iterPieces_abdCopyFromBufOffCb pieces buf 0 (by omega), hlen, List.drop_zero] at hw
  exact ⟨abd', by rw [abdCopyFromBufOff, hrun]; rfl, hw⟩

/-- **`abd_zero_off` is `memset(bytes + off, 0, size)`.** -/
theorem abdZeroOff_eq (hok : abd.Ok) (hsize : off + size ≤ abd.abdSize) :
    ∃ abd', abdZeroOff abd off size = some abd' ∧ abd.Written off (List.replicate size 0) abd' := by
  obtain ⟨pieces, -, hflat, abd', hrun, hw⟩ := abdIterateFunc_pieces abdZeroOffCb () hok hsize
  have hlen : pieces.flatten.length = size := by rw [hflat, length_window hok hsize]
  rw [iterPieces_abdZeroOffCb pieces, hlen] at hw
  exact ⟨abd', by rw [abdZeroOff, hrun]; rfl, hw⟩

/-- **`abd_copy_off` is `memcpy(dbytes + doff, sbytes + soff, size)`.** -/
theorem abdCopyOff_eq {dabd sabd : Abd} (hdok : dabd.Ok) (hsok : sabd.Ok) {doff soff size : ℕ}
    (hd : doff + size ≤ dabd.abdSize) (hs : soff + size ≤ sabd.abdSize) :
    ∃ dabd', abdCopyOff dabd sabd doff soff size = some dabd' ∧
      dabd.Written doff ((sabd.bytes.drop soff).take size) dabd' := by
  obtain ⟨pairs, hpairs, -, hsflat, dabd', sabd', hrun, hdw, -⟩ :=
    abdIterateFunc2_pieces abdCopyOffCb () hdok hsok hd hs
  rw [iterPieces_abdCopyOffCb pairs (fun q hq => (hpairs q hq).2), hsflat] at hdw
  exact ⟨dabd', by rw [abdCopyOff, hrun]; rfl, hdw⟩

/-- **`abd_cmp` is one `memcmp` of the two ABDs' bytes.** -/
theorem abdCmp_eq {dabd sabd : Abd} (hdok : dabd.Ok) (hsok : sabd.Ok)
    (hsize : dabd.abdSize = sabd.abdSize) : abdCmp dabd sabd = some (memcmp dabd.bytes sabd.bytes) := by
  obtain ⟨pairs, hpairs, hdflat, hsflat, dabd', sabd', hrun, -, -⟩ :=
    @abdIterateFunc2_pieces Unit abdCmpCb () dabd sabd hdok hsok 0 0 dabd.abdSize (by omega)
      (by omega)
  rw [abdCmp, hrun, Option.map_some, iterPieces_abdCmpCb pairs (fun q hq => (hpairs q hq).2),
    hdflat, hsflat, List.drop_zero, List.drop_zero, List.take_of_length_le (Nat.le_of_eq hdok.length_bytes),
    List.take_of_length_le (Nat.le_of_eq (hsok.length_bytes.trans hsize.symm))]

/-- **`abd_cmp` is 0 exactly on ABDs with equal bytes, and otherwise the difference of the first
two bytes that differ.** -/
theorem abdCmp_spec {dabd sabd : Abd} (hdok : dabd.Ok) (hsok : sabd.Ok)
    (hsize : dabd.abdSize = sabd.abdSize) :
    ∃ r, abdCmp dabd sabd = some r ∧ (r = 0 ↔ dabd.bytes = sabd.bytes) ∧
      ∀ i < dabd.abdSize, dabd.bytes.take i = sabd.bytes.take i →
        dabd.bytes.getD i 0 ≠ sabd.bytes.getD i 0 →
        r = ((dabd.bytes.getD i 0).toNat : ℤ) - (sabd.bytes.getD i 0).toNat := by
  have hlen : dabd.bytes.length = sabd.bytes.length := by
    rw [hdok.length_bytes, hsok.length_bytes, hsize]
  refine ⟨_, abdCmp_eq hdok hsok hsize, (memcmp_spec hlen).1, fun i hi htake hne => ?_⟩
  exact memcmp_of_take_eq htake (by rw [hdok.length_bytes]; exact hi)
    (by rw [← hlen, hdok.length_bytes]; exact hi) hne

end Ops

/-! ## ABDs as flat buffers -/

/-- **Every ABD behaves as its bytes.** Sub-ABDs are windows of their parents, again well formed
and starting inside their first chunk, so all that follows holds of them at any depth; the
iterations call their callbacks on non-empty pieces that tile the ranges, pairwise of one length
in lockstep; the copies and the zeroing are `memcpy` and `memset` on the bytes and the
comparisons `memcmp`; and the RAID-Z walks hand their callbacks same-length pieces of every
column and write back what it returns. -/
theorem abd_behaves_as_flat_buffer :
    (∀ sabd : Abd, sabd.Ok → ∀ off size, off + size ≤ sabd.abdSize →
      (abdGetOffsetSize sabd off size).bytes = (sabd.bytes.drop off).take size ∧
        (abdGetOffsetSize sabd off size).Ok ∧ (abdGetOffsetSize sabd off size).StartsInside) ∧
    (∀ sabd : Abd, sabd.Ok → ∀ off, (abdGetOffset sabd off = none ↔ sabd.abdSize ≤ off) ∧
      ∀ abd, abdGetOffset sabd off = some abd →
        abd.bytes = sabd.bytes.drop off ∧ abd.Ok ∧ abd.StartsInside) ∧
    (∀ (σ : Type) (f : AbdIterFunc σ) (st : σ) (abd : Abd), abd.Ok →
      ∀ off size, off + size ≤ abd.abdSize →
      ∃ pieces : List (List UInt8), (∀ q ∈ pieces, q ≠ []) ∧
        pieces.flatten = (abd.bytes.drop off).take size ∧
        ∃ abd', abdIterateFunc abd off size f st =
            some (abd', (iterPieces f.func st pieces).1, (iterPieces f.func st pieces).2.2) ∧
          abd.Written off (iterPieces f.func st pieces).2.1.flatten abd') ∧
    (∀ (σ : Type) (f : AbdIterFunc2 σ) (st : σ) (dabd sabd : Abd), dabd.Ok → sabd.Ok →
      ∀ doff soff size, doff + size ≤ dabd.abdSize → soff + size ≤ sabd.abdSize →
      ∃ pairs : List (List UInt8 × List UInt8), (∀ q ∈ pairs, q.1 ≠ [] ∧ q.1.length = q.2.length) ∧
        (pairs.map Prod.fst).flatten = (dabd.bytes.drop doff).take size ∧
        (pairs.map Prod.snd).flatten = (sabd.bytes.drop soff).take size ∧
        ∃ dabd' sabd', abdIterateFunc2 dabd sabd doff soff size f st =
            some (dabd', sabd', (iterPieces f.pairs st pairs).1, (iterPieces f.pairs st pairs).2.2) ∧
          dabd.Written doff ((iterPieces f.pairs st pairs).2.1.map Prod.fst).flatten dabd' ∧
          sabd.Written soff ((iterPieces f.pairs st pairs).2.1.map Prod.snd).flatten sabd') ∧
    (∀ (abd : Abd) (buf : List UInt8) (off size : ℕ), abd.Ok → off + size ≤ abd.abdSize →
      size ≤ buf.length →
      abdCopyToBufOff buf abd off size = some (writeAt buf 0 ((abd.bytes.drop off).take size)) ∧
      (∃ abd', abdCopyFromBufOff abd buf off size = some abd' ∧
        abd.Written off (buf.take size) abd') ∧
      ∃ r, abdCmpBufOff abd buf off size = some r ∧
        (r = 0 ↔ (abd.bytes.drop off).take size = buf.take size) ∧
        ∀ i < size, (abd.bytes.drop off).take i = buf.take i →
          abd.bytes.getD (off + i) 0 ≠ buf.getD i 0 →
          r = ((abd.bytes.getD (off + i) 0).toNat : ℤ) - (buf.getD i 0).toNat) ∧
    (∀ (abd : Abd) (off size : ℕ), abd.Ok → off + size ≤ abd.abdSize →
      ∃ abd', abdZeroOff abd off size = some abd' ∧
        abd.Written off (List.replicate size 0) abd') ∧
    (∀ dabd sabd : Abd, dabd.Ok → sabd.Ok →
      ∀ doff soff size, doff + size ≤ dabd.abdSize → soff + size ≤ sabd.abdSize →
      ∃ dabd', abdCopyOff dabd sabd doff soff size = some dabd' ∧
        dabd.Written doff ((sabd.bytes.drop soff).take size) dabd') ∧
    (∀ dabd sabd : Abd, dabd.Ok → sabd.Ok → dabd.abdSize = sabd.abdSize →
      ∃ r, abdCmp dabd sabd = some r ∧ (r = 0 ↔ dabd.bytes = sabd.bytes) ∧
        ∀ i < dabd.abdSize, dabd.bytes.take i = sabd.bytes.take i →
          dabd.bytes.getD i 0 ≠ sabd.bytes.getD i 0 →
          r = ((dabd.bytes.getD i 0).toNat : ℤ) - (sabd.bytes.getD i 0).toNat) ∧
    (∀ (f : RaidzGenFunc) (cabds : List Abd) (dabd : Option Abd) (csize dsize : ℕ),
      (∀ c ∈ cabds, c.Ok ∧ c.StartsInside ∧ csize ≤ c.abdSize) →
      dabd.elim (dsize = 0) (fun d => d.Ok ∧ d.StartsInside ∧ dsize = d.abdSize) →
      ∃ lens : List ℕ, (∀ n ∈ lens, 0 < n) ∧ lens.sum = csize ∧
        ∃ cabds', abdRaidzGenIterate cabds dabd csize dsize f = some (cabds', dabd) ∧
          Abd.AllWritten 0 cabds
            (walkColsWith f.func lens (cabds.map (·.bytes.take csize)) (dabd.elim [] Abd.bytes))
            cabds') ∧
    (∀ (f : RaidzRecFunc) (cabds tabds : List Abd) (tsize : ℕ),
      (∀ c ∈ cabds, c.Ok ∧ c.StartsInside ∧ tsize ≤ c.abdSize) →
      (∀ t ∈ tabds, t.Ok ∧ t.StartsInside ∧ tsize ≤ t.abdSize) →
      ∃ lens : List ℕ, (∀ n ∈ lens, 0 < n) ∧ lens.sum = tsize ∧
        ∃ cabds' tabds', abdRaidzRecIterate cabds tabds tsize f = some (cabds', tabds') ∧
          Abd.AllWritten 0 tabds (walkCols2 f.func lens (tabds.map (·.bytes.take tsize))
            (cabds.map (·.bytes.take tsize))).1 tabds' ∧
          Abd.AllWritten 0 cabds (walkCols2 f.func lens (tabds.map (·.bytes.take tsize))
            (cabds.map (·.bytes.take tsize))).2 cabds') := by
  refine ⟨fun sabd hok off size hsize => ?_, fun sabd hok off => ?_, ?_, ?_,
    fun abd buf off size hok hsize hbuf => ?_, fun abd off size hok hsize => abdZeroOff_eq hok hsize,
    fun dabd sabd hdok hsok doff soff size hd hs => abdCopyOff_eq hdok hsok hd hs,
    fun dabd sabd hdok hsok hsize => abdCmp_spec hdok hsok hsize,
    fun f cabds dabd csize dsize hc hd => abdRaidzGenIterate_pieces f hc hd,
    fun f cabds tabds tsize hc ht => abdRaidzRecIterate_pieces f hc ht⟩
  · obtain ⟨hbytes, hsub⟩ := bytes_abdGetOffsetSize hok hsize
    exact ⟨hbytes, hsub, abdGetOffsetSize_startsInside hok hsize⟩
  · obtain ⟨hnone, hsome⟩ := bytes_abdGetOffset hok off
    refine ⟨hnone, fun abd h => ?_⟩
    obtain ⟨hbytes, hsub⟩ := hsome abd h
    exact ⟨hbytes, hsub, abdGetOffset_startsInside hok h⟩
  · intro σ f st abd hok off size hsize
    exact abdIterateFunc_pieces f st hok hsize
  · intro σ f st dabd sabd hdok hsok doff soff size hd hs
    exact abdIterateFunc2_pieces f st hdok hsok hd hs
  · exact ⟨abdCopyToBufOff_eq hok hsize hbuf, abdCopyFromBufOff_eq hok hsize hbuf,
      abdCmpBufOff_spec hok hsize hbuf⟩

end Zfs
