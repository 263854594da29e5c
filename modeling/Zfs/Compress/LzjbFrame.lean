import Mathlib.Data.Nat.Bitwise
import Zfs.Compress.Lzjb
import Zfs.Lib.Except

/-!
# Compress/LzjbFrame — LZJB streams as groups of items, and the round trip

An LZJB stream is read here as a list of groups of at most eight items, each group framed by its
copy map (`frameGroup`): a literal byte, or a match of `mlen` bytes at back offset `offset`.  An
item is valid for a target string at a position when the decoder expands it to the target's bytes
there (`LzjbItem.Valid`), and a list of items tiles the target from one position to another
(`ItemsTile`).

The round trip is split along the frame, as a codec's is.  The decompressor expands any framed
stream of valid items into its target, group by group (`lzjbDecompressLoop_frame`); a match that
overlaps its own output copies bytes it has just written, and those are the target's already.  The
compressor's loop keeps its output equal to the frame of the items it has chosen, and those items
tile the source read so far (`lzjbCompressLoop_frame`), whatever its hash table holds: a match is
kept only after its bytes were compared.

* `lzjb_round_trip`: `lzjb_compress` writes no more than `d_len` bytes and stops, and when it
  returns less than `s_len` the stream it wrote decompresses to the source, reading nothing past
  its end.
-/

namespace Zfs

/-! ## Items and frames -/

/-- An item of a stream: a literal byte, or a match of `mlen` bytes `offset` back. -/
inductive LzjbItem where
  | literal (b : UInt8)
  | copy (mlen offset : ℕ)
  deriving DecidableEq, Repr

namespace LzjbItem

/-- The item's bit in its copy map. -/
def isCopy : LzjbItem → Bool
  | literal _ => false
  | copy _ _ => true

/-- The bytes an item expands to. -/
def width : LzjbItem → ℕ
  | literal _ => 1
  | copy mlen _ => mlen

/-- The bytes `lzjb_compress` writes for an item. -/
def encode : LzjbItem → List UInt8
  | literal b => [b]
  | copy mlen offset =>
    [UInt8.ofNat (((mlen - matchMin) <<< (nbby - matchBits)) ||| (offset >>> nbby)),
      UInt8.ofNat offset]

/-- The item expands to the bytes of `target` at `p`: a literal is the byte there, and a match has
a length and an offset its two bytes can hold, reaches back no further than the start, and repeats
what stands `offset` bytes before it, possibly overlapping itself. -/
def Valid (target : List UInt8) (p : ℕ) : LzjbItem → Prop
  | literal b => p < target.length ∧ target.getD p 0 = b
  | copy mlen offset =>
    matchMin ≤ mlen ∧ mlen ≤ matchMax ∧ 1 ≤ offset ∧ offset ≤ offsetMask ∧ offset ≤ p ∧
      p + mlen ≤ target.length ∧
      ∀ k < mlen, target.getD (p + k) 0 = target.getD (p - offset + k) 0

theorem width_pos_of_valid {target : List UInt8} {p : ℕ} :
    ∀ {it : LzjbItem}, it.Valid target p → 1 ≤ it.width
  | literal _, _ => le_rfl
  | copy _ _, h => by simp only [width]; have := h.1; simp only [matchMin] at this; omega

theorem le_length_of_valid {target : List UInt8} {p : ℕ} :
    ∀ {it : LzjbItem}, it.Valid target p → p + it.width ≤ target.length
  | literal _, h => h.1
  | copy _ _, h => h.2.2.2.2.2.1

end LzjbItem

/-- The items `its` expand to the bytes of `target` from `p` to `q`. -/
def ItemsTile (target : List UInt8) : ℕ → List LzjbItem → ℕ → Prop
  | p, [], q => p = q
  | p, it :: its, q => it.Valid target p ∧ ItemsTile target (p + it.width) its q

theorem itemsTile_append {target : List UInt8} :
    ∀ {p r : ℕ} (a b : List LzjbItem),
      ItemsTile target p (a ++ b) r ↔ ∃ q, ItemsTile target p a q ∧ ItemsTile target q b r
  | p, r, [], b => by simp [ItemsTile]
  | p, r, it :: a, b => by
    simp only [List.cons_append, ItemsTile, itemsTile_append a b]
    constructor
    · rintro ⟨hv, q, ha, hb⟩
      exact ⟨q, ⟨hv, ha⟩, hb⟩
    · rintro ⟨q, ⟨hv, ha⟩, hb⟩
      exact ⟨hv, q, ha, hb⟩

/-- One item appended to a tiling extends it. -/
theorem ItemsTile.snoc {target : List UInt8} {p q : ℕ} {its : List LzjbItem} {it : LzjbItem}
    (h : ItemsTile target p its q) (hv : it.Valid target q) :
    ItemsTile target p (its ++ [it]) (q + it.width) :=
  (itemsTile_append its [it]).mpr ⟨q, h, hv, rfl⟩

/-- Every item expands to at least one byte, so a tiling has no more items than bytes, and stays
inside the target. -/
theorem ItemsTile.length_le {target : List UInt8} :
    ∀ {p q : ℕ} {its : List LzjbItem}, ItemsTile target p its q →
      p + its.length ≤ q ∧ (its ≠ [] → q ≤ target.length)
  | p, q, [], h => by simp [ItemsTile] at h; simp [h]
  | p, q, it :: its, ⟨hv, h⟩ => by
    have hw := LzjbItem.width_pos_of_valid hv
    have hle := LzjbItem.le_length_of_valid hv
    obtain ⟨ih₁, ih₂⟩ := ItemsTile.length_le h
    refine ⟨by simp only [List.length_cons]; omega, fun _ => ?_⟩
    rcases its with _ | ⟨it', its'⟩
    · simp only [ItemsTile] at h; omega
    · exact ih₂ (List.cons_ne_nil _ _)

/-- The copy map of a group: bit `k` is set when item `k` is a match. -/
def mapBits : List LzjbItem → ℕ
  | [] => 0
  | it :: g => (if it.isCopy then 1 else 0) + 2 * mapBits g

/-- A group as it stands in a stream: its copy map, then its items. -/
def frameGroup : List LzjbItem → List UInt8
  | [] => []
  | it :: g => UInt8.ofNat (mapBits (it :: g)) :: (it :: g).flatMap LzjbItem.encode

/-- A stream of groups. -/
def frame (gs : List (List LzjbItem)) : List UInt8 := gs.flatMap frameGroup

theorem frameGroup_of_ne_nil {g : List LzjbItem} (h : g ≠ []) :
    frameGroup g = UInt8.ofNat (mapBits g) :: g.flatMap LzjbItem.encode := by
  cases g with
  | nil => exact absurd rfl h
  | cons it g => rfl

theorem frame_append_singleton (gs : List (List LzjbItem)) (g : List LzjbItem) :
    frame (gs ++ [g]) = frame gs ++ frameGroup g := by
  simp [frame]

/-! ## Copy maps -/

theorem mapBits_lt : ∀ g : List LzjbItem, mapBits g < 2 ^ g.length
  | [] => by simp [mapBits]
  | it :: g => by
    have := mapBits_lt g
    simp only [mapBits, List.length_cons, pow_succ]
    split <;> omega

theorem mapBits_append_singleton :
    ∀ (g : List LzjbItem) (it : LzjbItem),
      mapBits (g ++ [it]) = mapBits g + (if it.isCopy then 2 ^ g.length else 0)
  | [], it => by simp [mapBits]
  | it' :: g, it => by
    simp only [List.cons_append, mapBits, mapBits_append_singleton g it, List.length_cons, pow_succ]
    cases it.isCopy <;> simp only [Bool.false_eq_true, if_false, if_true] <;> omega

/-- The decoder's test of bit `k` of a copy map reads item `k`'s kind. -/
theorem testBit_mapBits :
    ∀ (g : List LzjbItem) (k : ℕ) (hk : k < g.length), (mapBits g).testBit k = g[k].isCopy
  | [], k, hk => by simp at hk
  | it :: g, 0, _ => by
    simp only [mapBits, Nat.testBit_zero, List.getElem_cons_zero]
    cases it.isCopy <;> simp [Nat.add_mul_mod_self_left]
  | it :: g, k + 1, hk => by
    simp only [mapBits, Nat.testBit_succ, List.getElem_cons_succ]
    rw [← testBit_mapBits g k (by simpa using hk)]
    congr 1
    split <;> omega

/-- Setting bit `c` of a copy map whose bits are below `c`. -/
theorem ofNat_or_two_pow {m c : ℕ} (hm : m < 2 ^ c) (hc : c < 8) :
    UInt8.ofNat m ||| UInt8.ofNat (2 ^ c) = UInt8.ofNat (m + 2 ^ c) := by
  have h₂ : 2 ^ c ≤ 2 ^ 7 := Nat.pow_le_pow_right (by norm_num) (by omega)
  apply UInt8.toNat_inj.mp
  rw [UInt8.toNat_or, UInt8.toNat_ofNat_of_lt' (by simp only [UInt8.size]; omega),
    UInt8.toNat_ofNat_of_lt' (by simp only [UInt8.size]; omega),
    UInt8.toNat_ofNat_of_lt' (by simp only [UInt8.size]; omega), Nat.lor_comm,
    ← Nat.one_mul (2 ^ c), mul_two_pow_or_of_lt hm]
  omega

/-- The mask of the item after the `c`-th of a group, `c ≤ 8`: the next copy map's when the group
is full or not yet begun. -/
theorem mask_shift : ∀ c ≤ 8,
    2 ^ ((c + 7) % 8) <<< 1 = if c % 8 = 0 then 1 <<< nbby else 2 ^ c := by
  decide

theorem toNat_ofNat_mapBits {g : List LzjbItem} (hg : g.length ≤ 8) :
    (UInt8.ofNat (mapBits g)).toNat = mapBits g := by
  have h₁ := mapBits_lt g
  have h₂ : 2 ^ g.length ≤ 2 ^ 8 := Nat.pow_le_pow_right (by norm_num) hg
  exact UInt8.toNat_ofNat_of_lt' (by simp only [UInt8.size]; omega)

/-! ## The fields of a match -/

section Fields

variable {mlen offset : ℕ}

/-- The first byte of a match holds its length, less `MATCH_MIN`, above the offset's top bits. -/
theorem toNat_copyHead (hmin : matchMin ≤ mlen) (hmax : mlen ≤ matchMax) (hoff : offset ≤ offsetMask) :
    (UInt8.ofNat (((mlen - matchMin) <<< (nbby - matchBits)) ||| (offset >>> nbby))).toNat =
      (mlen - matchMin) * 2 ^ 2 + offset / 2 ^ 8 := by
  rw [matchMax_eq] at hmax
  rw [offsetMask_eq] at hoff
  simp only [matchMin, matchBits, nbby] at *
  simp only [Nat.reduceSub, Nat.shiftLeft_eq, Nat.shiftRight_eq_div_pow]
  rw [mul_two_pow_or_of_lt (by omega)]
  exact UInt8.toNat_ofNat_of_lt' (by simp only [UInt8.size]; omega)

/-- **A match's two bytes decode to its length and offset.** -/
theorem decode_copy_fields (hmin : matchMin ≤ mlen) (hmax : mlen ≤ matchMax)
    (hoff : offset ≤ offsetMask) :
    let b0 := UInt8.ofNat (((mlen - matchMin) <<< (nbby - matchBits)) ||| (offset >>> nbby))
    let b1 := UInt8.ofNat offset
    (b0.toNat >>> (nbby - matchBits)) + matchMin = mlen ∧
      ((b0.toNat <<< nbby) ||| b1.toNat) &&& offsetMask = offset := by
  intro b0 b1
  have h0 : b0.toNat = (mlen - matchMin) * 2 ^ 2 + offset / 2 ^ 8 := toNat_copyHead hmin hmax hoff
  have h1 : b1.toNat = offset % 2 ^ 8 := UInt8.toNat_ofNat'
  rw [h0, h1, offsetMask_eq]
  rw [matchMax_eq] at hmax
  rw [offsetMask_eq] at hoff
  simp only [matchMin, matchBits, nbby] at *
  simp only [Nat.reduceSub, Nat.shiftLeft_eq, Nat.shiftRight_eq_div_pow]
  rw [mul_two_pow_or_of_lt (Nat.mod_lt _ (by norm_num)),
    show (1023 : ℕ) = 2 ^ 10 - 1 from rfl, Nat.and_two_pow_sub_one_eq_mod]
  omega

end Fields

/-! ## The decompressor expands a frame -/

/-- The destination holds the target's bytes below `n`, and has the target's length. -/
structure Agree (target : List UInt8) (n : ℕ) (buf : List UInt8) : Prop where
  length : buf.length = target.length
  getD : ∀ i < n, buf.getD i 0 = target.getD i 0

theorem Agree.set {target buf : List UInt8} {n : ℕ} {v : UInt8} (h : Agree target n buf)
    (hn : n < target.length) (hv : v = target.getD n 0) : Agree target (n + 1) (buf.set n v) := by
  refine ⟨by rw [List.length_set, h.length], fun i hi => ?_⟩
  simp only [List.getD_eq_getElem?_getD, List.getElem?_set]
  by_cases hin : n = i
  · subst hin
    rw [if_pos rfl, if_pos (by rw [h.length]; exact hn), hv, List.getD_eq_getElem?_getD]
    rfl
  · rw [if_neg hin, ← List.getD_eq_getElem?_getD, ← List.getD_eq_getElem?_getD]
    exact h.getD i (by omega)

/-- A destination that agrees with the target up to its length is the target. -/
theorem Agree.eq {target buf : List UInt8} (h : Agree target target.length buf) : buf = target := by
  refine List.ext_getElem h.length fun i h₁ h₂ => ?_
  have := h.getD i h₂
  rw [List.getD_eq_getElem?_getD, List.getD_eq_getElem?_getD, List.getElem?_eq_getElem h₁,
    List.getElem?_eq_getElem h₂] at this
  exact this

/-- **The byte-at-a-time copy of a match.**  Each byte copied is one the target repeats from
`offset` back, already in the destination even when the match overlaps what it writes. -/
theorem lzjbCopy_agree {target : List UInt8} :
    ∀ (mlen cpy dst : ℕ) (buf : List UInt8), Agree target dst buf → cpy < dst →
      dst + mlen ≤ target.length →
      (∀ k < mlen, target.getD (dst + k) 0 = target.getD (cpy + k) 0) →
      ∃ buf', lzjbCopy target.length mlen cpy dst buf = (dst + mlen, buf') ∧
        Agree target (dst + mlen) buf'
  | 0, _, _, buf, h, _, _, _ => ⟨buf, rfl, h⟩
  | mlen + 1, cpy, dst, buf, h, hcpy, hlen, heq => by
    -- the byte at `cpy` is below `dst`, so it is the target's; the target repeats it at `dst`
    have hv : buf.getD cpy 0 = target.getD dst 0 := by
      have h0 := heq 0 (by omega)
      simp only [Nat.add_zero] at h0
      rw [h.getD cpy hcpy, h0]
    obtain ⟨buf', hcopy, hagree⟩ := lzjbCopy_agree mlen (cpy + 1) (dst + 1) _
      (h.set (by omega) hv) (by omega) (by omega)
      (fun k hk => by rw [Nat.add_right_comm, Nat.add_right_comm cpy]; exact heq (k + 1) (by omega))
    refine ⟨buf', ?_, by rwa [Nat.add_right_comm] at hagree⟩
    rw [lzjbCopy, if_pos (by omega), hcopy, Nat.add_right_comm, Nat.add_assoc]

/-- The decoder's test of a mask bit is the bit. -/
theorem and_two_pow_ne_zero_iff (n i : ℕ) : n &&& 2 ^ i ≠ 0 ↔ n.testBit i = true := by
  rw [Nat.and_two_pow]
  cases n.testBit i <;> simp

/-- The suffix of a stream after a piece it starts with. -/
theorem drop_add_of_drop_eq {s xs ys : List UInt8} {i : ℕ} (h : s.drop i = xs ++ ys) :
    s.drop (i + xs.length) = ys := by
  rw [← List.drop_drop, h, List.drop_left]

section Decode

variable {s target : List UInt8}

theorem lzjbNextMap_refresh {src copymap copymask : ℕ} {m : UInt8}
    (h : copymask <<< 1 = 1 <<< nbby) (hb : bufAt s src = .ok m) :
    lzjbNextMap s src copymap copymask = .ok (src + 1, m.toNat, 1) := by
  rw [lzjbNextMap, if_pos h, hb]
  rfl

theorem lzjbNextMap_shift {src copymap copymask : ℕ} (h : copymask <<< 1 ≠ 1 <<< nbby) :
    lzjbNextMap s src copymap copymask = .ok (src, copymap, copymask <<< 1) := by
  rw [lzjbNextMap, if_neg h]
  rfl

/-- Past the end of the destination the loop returns 0, with or without fuel. -/
theorem lzjbDecompressLoop_of_le {dLen src dst copymap copymask : ℕ} {buf : List UInt8}
    (h : dLen ≤ dst) :
    ∀ fuel, lzjbDecompressLoop s dLen fuel src dst copymap copymask buf = .ok (0, buf)
  | 0 => rfl
  | _ + 1 => by rw [lzjbDecompressLoop, if_neg (by omega)]

/-- **One item.**  After the copy map is brought up to date, an item whose bit and bytes stand
at the source offset is expanded to the target's bytes it covers. -/
theorem lzjbDecompressLoop_item {src dst copymap copymask src' map' mask' : ℕ}
    {buf rest : List UInt8} {it : LzjbItem} (fuel : ℕ)
    (hmap : lzjbNextMap s src copymap copymask = .ok (src', map', mask'))
    (hbit : map' &&& mask' ≠ 0 ↔ it.isCopy = true) (hs : s.drop src' = it.encode ++ rest)
    (hv : it.Valid target dst) (hbuf : Agree target dst buf) :
    ∃ buf', Agree target (dst + it.width) buf' ∧
      lzjbDecompressLoop s target.length (fuel + 1) src dst copymap copymask buf =
        lzjbDecompressLoop s target.length fuel (src' + it.encode.length) (dst + it.width) map'
          mask' buf' := by
  have hdst : dst < target.length := by
    have := LzjbItem.le_length_of_valid hv
    have := LzjbItem.width_pos_of_valid hv
    omega
  rw [lzjbDecompressLoop, if_pos hdst, hmap, Except.ok_bind_eq]
  simp only
  cases it with
  | literal b =>
    have hb : bufAt s src' = .ok b := bufAt_of_drop hs
    rw [if_neg (by simpa [LzjbItem.isCopy] using hbit), hb, Except.ok_bind_eq]
    exact ⟨_, hbuf.set hdst hv.2.symm, rfl⟩
  | copy mlen offset =>
    obtain ⟨hmin, hmax, hoff₁, hoff, hoffp, hlen, heq⟩ := hv
    have hb0 := bufAt_of_drop hs
    have hb1 : bufAt s (src' + 1) = .ok (UInt8.ofNat offset) := by
      have hs1 : s.drop (src' + 1) = UInt8.ofNat offset :: rest := by
        rw [← List.drop_drop, hs]
        rfl
      exact bufAt_of_drop hs1
    obtain ⟨hmlen, hoffset⟩ := decode_copy_fields hmin hmax hoff
    rw [if_pos (by simpa [LzjbItem.isCopy] using hbit), hb0, Except.ok_bind_eq, hb1,
      Except.ok_bind_eq]
    rw [hmlen, hoffset, if_neg (by omega)]
    obtain ⟨buf', hcopy, hagree⟩ :=
      lzjbCopy_agree mlen (dst - offset) dst buf hbuf (by omega) hlen heq
    exact ⟨buf', hagree, by rw [hcopy]; rfl⟩

/-- The items of a group after its first, at bits `j, j + 1, …` of its copy map `M`. -/
theorem lzjbDecompressLoop_rest {M : ℕ} {rest : List UInt8} (fuel : ℕ) :
    ∀ (items : List LzjbItem) (j src dst dst' : ℕ) (buf : List UInt8), 1 ≤ j →
      j + items.length ≤ 8 → (∀ i (hi : i < items.length), M.testBit (j + i) = items[i].isCopy) →
      s.drop src = items.flatMap LzjbItem.encode ++ rest → ItemsTile target dst items dst' →
      Agree target dst buf →
      ∃ buf', Agree target dst' buf' ∧
        lzjbDecompressLoop s target.length (items.length + fuel) src dst M (2 ^ (j - 1)) buf =
          lzjbDecompressLoop s target.length fuel (src + (items.flatMap LzjbItem.encode).length)
            dst' M (2 ^ (j - 1 + items.length)) buf'
  | [], j, src, dst, dst', buf, _, _, _, _, ht, hbuf => by
    simp only [ItemsTile] at ht
    subst ht
    exact ⟨buf, hbuf, by simp⟩
  | it :: items, j, src, dst, dst', buf, hj, hlen, hbits, hs, ⟨hv, ht⟩, hbuf => by
    simp only [List.length_cons] at hlen
    -- the mask moves to bit `j`, short of the next copy map
    have hshift : 2 ^ (j - 1) <<< 1 = 2 ^ j := by
      rw [Nat.shiftLeft_eq, ← pow_succ]
      congr 1
      omega
    have hne : 2 ^ (j - 1) <<< 1 ≠ 1 <<< nbby := by
      rw [hshift, show 1 <<< nbby = 2 ^ 8 from rfl]
      exact (Nat.pow_lt_pow_right (by norm_num) (by omega)).ne
    have hmap : lzjbNextMap s src M (2 ^ (j - 1)) = .ok (src, M, 2 ^ j) := by
      rw [lzjbNextMap_shift hne, hshift]
    have hbit : M &&& 2 ^ j ≠ 0 ↔ it.isCopy = true := by
      have h0 := hbits 0 (by simp)
      rw [Nat.add_zero, List.getElem_cons_zero] at h0
      rw [and_two_pow_ne_zero_iff, h0]
    rw [List.flatMap_cons, List.append_assoc] at hs
    obtain ⟨buf₁, hbuf₁, hstep⟩ := lzjbDecompressLoop_item (items.length + fuel) hmap hbit hs hv hbuf
    obtain ⟨buf', hbuf', hrest⟩ := lzjbDecompressLoop_rest fuel items (j + 1) (src + it.encode.length)
      (dst + it.width) dst' buf₁ (by omega) (by omega)
      (fun i hi => by rw [Nat.add_right_comm, Nat.add_assoc, hbits (i + 1) (by simp; omega)]; rfl)
      (drop_add_of_drop_eq hs) ht hbuf₁
    rw [Nat.add_sub_cancel] at hrest
    refine ⟨buf', hbuf', ?_⟩
    rw [List.length_cons, Nat.add_right_comm, hstep, hrest, List.flatMap_cons, List.length_append,
      ← Nat.add_assoc, show j - 1 + (items.length + 1) = j + items.length by omega]

/-- **One group.**  From a group boundary the decoder reads the copy map and expands the group's
items; the mask it leaves is at the group's last bit, and at `1 << (NBBY - 1)` again after a full
group. -/
theorem lzjbDecompressLoop_group {copymap src dst dst' : ℕ} {rest buf : List UInt8} (fuel : ℕ)
    (g : List LzjbItem) (hg : g.length ≤ 8) (hs : s.drop src = frameGroup g ++ rest)
    (ht : ItemsTile target dst g dst') (hbuf : Agree target dst buf) :
    ∃ buf' map', Agree target dst' buf' ∧
      lzjbDecompressLoop s target.length (g.length + fuel) src dst copymap 128 buf =
        lzjbDecompressLoop s target.length fuel (src + (frameGroup g).length) dst' map'
          (2 ^ ((g.length + 7) % 8)) buf' := by
  cases g with
  | nil =>
    simp only [ItemsTile] at ht
    subst ht
    exact ⟨buf, copymap, hbuf, by simp [frameGroup]⟩
  | cons it g =>
    obtain ⟨hv, ht⟩ := ht
    simp only [frameGroup, List.cons_append] at hs
    have hmap : lzjbNextMap s src copymap 128 = .ok (src + 1, mapBits (it :: g), 1) := by
      rw [lzjbNextMap_refresh (show (128 : ℕ) <<< 1 = 1 <<< nbby from rfl) (bufAt_of_drop hs),
        toNat_ofNat_mapBits hg]
    have hbits := testBit_mapBits (it :: g)
    have hbit : mapBits (it :: g) &&& 1 ≠ 0 ↔ it.isCopy = true := by
      rw [show (1 : ℕ) = 2 ^ 0 from rfl, and_two_pow_ne_zero_iff, hbits 0 (by simp)]
      rfl
    have hs₁ : s.drop (src + 1) = it.encode ++ (g.flatMap LzjbItem.encode ++ rest) := by
      rw [← List.drop_drop, hs, List.flatMap_cons, List.append_assoc]
      rfl
    have hg' : g.length < 8 := by simp at hg; omega
    obtain ⟨buf₁, hbuf₁, hstep⟩ := lzjbDecompressLoop_item (g.length + fuel) hmap hbit hs₁ hv hbuf
    obtain ⟨buf', hbuf', hrest⟩ := lzjbDecompressLoop_rest fuel g 1 (src + 1 + it.encode.length)
      (dst + it.width) dst' buf₁ le_rfl (by omega)
      (fun i hi => by rw [Nat.add_comm 1 i, hbits (i + 1) (by simp; omega)]; rfl)
      (drop_add_of_drop_eq hs₁) ht hbuf₁
    rw [Nat.sub_self, pow_zero] at hrest
    refine ⟨buf', mapBits (it :: g), hbuf', ?_⟩
    have hfuel : (it :: g).length + fuel = g.length + fuel + 1 := by
      rw [List.length_cons]
      omega
    have hsrc : src + 1 + it.encode.length + (g.flatMap LzjbItem.encode).length =
        src + (frameGroup (it :: g)).length := by
      simp only [frameGroup, List.length_cons, List.flatMap_cons, List.length_append]
      omega
    have hmask : 0 + g.length = ((it :: g).length + 7) % 8 := by
      rw [List.length_cons]
      omega
    rw [hfuel, hstep, hrest, hsrc, hmask]

/-- **The stream.**  From a group boundary, a frame whose groups but the last are full expands into
the target, and the loop returns 0 once the destination is full. -/
theorem lzjbDecompressLoop_frame :
    ∀ (gs : List (List LzjbItem)) (src dst copymap fuel : ℕ) (buf : List UInt8),
      (∀ g ∈ gs, g.length ≤ 8) → (∀ g ∈ gs.dropLast, g.length % 8 = 0) →
      s.drop src = frame gs → ItemsTile target dst gs.flatten target.length →
      Agree target dst buf → gs.flatten.length ≤ fuel →
      lzjbDecompressLoop s target.length fuel src dst copymap 128 buf = .ok (0, target)
  | [], src, dst, copymap, fuel, buf, _, _, _, ht, hbuf, _ => by
    simp only [List.flatten_nil, ItemsTile] at ht
    subst ht
    rw [lzjbDecompressLoop_of_le le_rfl, hbuf.eq]
  | g :: gs, src, dst, copymap, fuel, buf, hlen, hfull, hs, ht, hbuf, hfuel => by
    rw [List.flatten_cons] at ht hfuel
    obtain ⟨q, htg, htgs⟩ := (itemsTile_append g gs.flatten).mp ht
    have hs' : s.drop src = frameGroup g ++ frame gs := by rw [hs, frame, List.flatMap_cons]; rfl
    rw [List.length_append] at hfuel
    obtain ⟨k, rfl⟩ : ∃ k, fuel = g.length + k := ⟨fuel - g.length, by omega⟩
    obtain ⟨buf', map', hbuf', hstep⟩ :=
      lzjbDecompressLoop_group k g (hlen g List.mem_cons_self) hs' htg hbuf
    rw [hstep]
    rcases gs with _ | ⟨g', gs'⟩
    · -- the last group fills the destination
      simp only [List.flatten_nil, ItemsTile] at htgs
      subst htgs
      rw [lzjbDecompressLoop_of_le le_rfl, hbuf'.eq]
    · -- a full group leaves the mask at a group boundary
      have h8 : g.length % 8 = 0 := hfull g (by simp)
      rw [show (g.length + 7) % 8 = 7 by omega]
      refine lzjbDecompressLoop_frame (g' :: gs') _ q map' k buf'
        (fun h hh => hlen h (List.mem_cons_of_mem _ hh))
        (fun h hh => hfull h (by rw [List.dropLast_cons_cons]; exact List.mem_cons_of_mem _ hh))
        (drop_add_of_drop_eq hs') htgs hbuf' (by omega)

end Decode

/-- The stream `out` frames the groups `gs`, all of them but the last full, whose items tile all
of `target`. -/
structure Frames (target out : List UInt8) (gs : List (List LzjbItem)) : Prop where
  length_le : ∀ g ∈ gs, g.length ≤ 8
  full : ∀ g ∈ gs.dropLast, g.length % 8 = 0
  out_eq : out = frame gs
  tile : ItemsTile target 0 gs.flatten target.length

/-- **The decompressor inverts a frame.**  A stream that frames items tiling the target
decompresses, into a destination of the target's length, to the target, and loads no byte past
the stream's end. -/
theorem lzjbDecompress_frame {target out d : List UInt8} {gs : List (List LzjbItem)}
    (h : Frames target out gs) (hd : d.length = target.length) :
    lzjbDecompress out d = .ok (0, target) := by
  have hcount := (ItemsTile.length_le h.tile).1
  rw [lzjbDecompress, hd, h.out_eq]
  exact lzjbDecompressLoop_frame gs 0 0 0 target.length d h.length_le h.full rfl h.tile
    ⟨hd, fun i hi => absurd hi (Nat.not_lt_zero i)⟩ (by omega)

/-! ## The compressor writes a frame -/

section Encode

variable {s : List UInt8}

theorem lzjbMatchLen_bounds (src cpy k m : ℕ) :
    m ≤ lzjbMatchLen s src cpy k m ∧ lzjbMatchLen s src cpy k m ≤ m + k := by
  induction k generalizing m with
  | zero => simp [lzjbMatchLen]
  | succ k ih =>
    have := ih (m + 1)
    rw [lzjbMatchLen]
    split <;> omega

/-- Below the length found, the bytes at `src` and at the candidate agree. -/
theorem getD_eq_of_lt_lzjbMatchLen (src cpy k m : ℕ) :
    ∀ i, m ≤ i → i < lzjbMatchLen s src cpy k m → s.getD (src + i) 0 = s.getD (cpy + i) 0 := by
  induction k generalizing m with
  | zero =>
    intro i h₁ h₂
    simp only [lzjbMatchLen] at h₂
    omega
  | succ k ih =>
    intro i h₁ h₂
    rw [lzjbMatchLen] at h₂
    split at h₂
    · omega
    · rename_i heq
      rcases Nat.eq_or_lt_of_le h₁ with rfl | h₁
      · exact not_not.mp heq
      · exact ih (m + 1) i h₁ h₂

/-- The offset the compressor takes from its hash table fits the ten bits of a match. -/
theorem toNat_emod_le_offsetMask (x : ℤ) : (x % (offsetMask + 1 : ℤ)).toNat ≤ offsetMask := by
  have := Int.emod_lt_of_pos x (show (0 : ℤ) < (offsetMask : ℕ) + 1 by norm_num)
  omega

/-- **The item the compressor writes.**  At a source offset inside the source, the second half
of a turn writes one item valid there, whatever the hash table holds, and moves past its bytes. -/
theorem lzjbCompressItem_spec (base src : ℕ) (out : List UInt8) (cm mask : ℕ) (lempel : ℕ → ℕ)
    (hsrc : src < s.length) :
    ∃ it : LzjbItem, it.Valid s src ∧ it.encode.length ≤ 2 ∧
      (lzjbCompressItem s base src out cm mask lempel).1 = src + it.width ∧
      (lzjbCompressItem s base src out cm mask lempel).2.1 =
        (if it.isCopy then out.modify cm (· ||| UInt8.ofNat mask) else out) ++ it.encode := by
  rw [lzjbCompressItem]
  split
  · exact ⟨.literal (s.getD src 0), ⟨hsrc, rfl⟩, by simp [LzjbItem.encode], rfl, rfl⟩
  · rename_i hend
    rw [matchMax_eq] at hend
    dsimp only
    split
    · -- a candidate that checked out: a match, extended as far as its bytes agree
      rename_i hc
      obtain ⟨hle, hne, h0, h1, h2⟩ := hc
      set offset := ((((base + src : ℕ) : ℤ) - _) % (offsetMask + 1 : ℤ)).toNat with hoffset
      set mlen := lzjbMatchLen s src (src - offset) (matchMax - matchMin) matchMin
      obtain ⟨hb₁, hb₂⟩ : matchMin ≤ mlen ∧ mlen ≤ matchMin + (matchMax - matchMin) :=
        lzjbMatchLen_bounds src (src - offset) _ _
      rw [matchMax_eq] at hb₂
      simp only [matchMin] at hb₁ hb₂
      refine ⟨.copy mlen offset, ⟨hb₁, by rw [matchMax_eq]; omega, by omega,
        toNat_emod_le_offsetMask _, hle, by omega, fun k hk => ?_⟩, by simp [LzjbItem.encode], rfl,
        rfl⟩
      -- the first three bytes were compared before the loop, the others by it
      match k, hk with
      | 0, _ => simpa using h0
      | 1, _ => exact h1
      | 2, _ => exact h2
      | k + 3, hk => exact getD_eq_of_lt_lzjbMatchLen src (src - offset) _ _ (k + 3) (by simp [matchMin]) hk
    · exact ⟨.literal (s.getD src 0), ⟨hsrc, rfl⟩, by simp [LzjbItem.encode], rfl, rfl⟩

/-- The compressor's state frames the full groups `done` and the current group `cur`: its output,
the offset of the current copy map, the mask of the item written last, and room left in `d_len`
for the rest of the group. -/
structure EncFrame (dLen : ℕ) (out : List UInt8) (cm copymask : ℕ) (done : List (List LzjbItem))
    (cur : List LzjbItem) : Prop where
  full : ∀ g ∈ done, g.length ≤ 8 ∧ g.length % 8 = 0
  cur_le : cur.length ≤ 8
  out_eq : out = frame done ++ frameGroup cur
  cm_eq : cm = (frame done).length
  mask_eq : copymask = 2 ^ ((cur.length + 7) % 8)
  fits : out.length ≤ dLen
  room : cur ≠ [] → out.length + 2 * (8 - cur.length) < dLen

section EncFrame

variable {dLen cm copymask : ℕ} {out : List UInt8} {done : List (List LzjbItem)}
  {cur : List LzjbItem}

theorem EncFrame.init (dLen : ℕ) : EncFrame dLen [] 0 (1 <<< (nbby - 1)) [] [] :=
  ⟨by simp, by simp, rfl, rfl, rfl, Nat.zero_le _, fun h => absurd rfl h⟩

/-- **A new group.**  When the mask runs out and the bail-out test passes, the compressor writes a
zero copy map and the next item opens a group of its own. -/
theorem EncFrame.push_new (h : EncFrame dLen out cm copymask done cur)
    (hnew : copymask <<< 1 = 1 <<< nbby) (hroom : ¬dLen ≤ out.length + 1 + 2 * nbby)
    (it : LzjbItem) (hw : it.encode.length ≤ 2) :
    EncFrame dLen ((if it.isCopy then (out ++ [0]).modify out.length (· ||| UInt8.ofNat 1)
        else out ++ [0]) ++ it.encode) out.length 1 (done ++ [cur]) ([] ++ [it]) := by
  have hc : cur.length % 8 = 0 := by
    by_contra hc
    have hshift := mask_shift cur.length h.cur_le
    rw [← h.mask_eq, hnew, if_neg hc] at hshift
    have : 2 ^ cur.length < 2 ^ 8 := Nat.pow_lt_pow_right (by norm_num) (by have := h.cur_le; omega)
    rw [← hshift] at this
    exact absurd this (lt_irrefl _)
  have hmap : (if it.isCopy then (out ++ [0]).modify out.length (· ||| UInt8.ofNat 1)
      else out ++ [0]) = out ++ [UInt8.ofNat (mapBits [it])] := by
    cases it <;> simp [LzjbItem.isCopy, mapBits, List.modify_eq_set]
  have hframe : frame (done ++ [cur]) = out := by rw [frame_append_singleton, h.out_eq]
  simp only [nbby] at hroom
  refine ⟨fun g hg => ?_, by simp, ?_, by rw [hframe], by simp, ?_, fun _ => ?_⟩
  · rcases List.mem_append.mp hg with hg | hg
    · exact h.full g hg
    · rw [List.mem_singleton.mp hg]
      exact ⟨h.cur_le, hc⟩
  · rw [hmap, hframe]
    simp [frameGroup]
  · rw [hmap, List.length_append, List.length_append]
    simp only [List.length_singleton]
    omega
  · rw [hmap, List.length_append, List.length_append]
    simp only [List.length_singleton, List.nil_append]
    omega

/-- **An item in the current group.**  The compressor sets the item's bit in the copy map written
at the group's start, when it is a match, and writes the item. -/
theorem EncFrame.push_same (h : EncFrame dLen out cm copymask done cur)
    (hnew : copymask <<< 1 ≠ 1 <<< nbby) (it : LzjbItem) (hw : it.encode.length ≤ 2) :
    EncFrame dLen ((if it.isCopy then out.modify cm (· ||| UInt8.ofNat (copymask <<< 1))
        else out) ++ it.encode) cm (copymask <<< 1) done (cur ++ [it]) := by
  have hshift := mask_shift cur.length h.cur_le
  rw [← h.mask_eq] at hshift
  have hc : cur.length % 8 ≠ 0 := fun hc => hnew (by rw [hshift, if_pos hc])
  rw [if_neg hc] at hshift
  have hc8 : cur.length < 8 := by have := h.cur_le; omega
  have hne : cur ≠ [] := fun hnil => hc (by simp [hnil])
  have hmap : (if it.isCopy then out.modify cm (· ||| UInt8.ofNat (copymask <<< 1)) else out) =
      frame done ++ UInt8.ofNat (mapBits (cur ++ [it])) :: cur.flatMap LzjbItem.encode := by
    rw [mapBits_append_singleton, h.out_eq, frameGroup_of_ne_nil hne, h.cm_eq, hshift]
    cases it.isCopy with
    | false => simp
    | true =>
      simp only [if_true, List.modify_eq_set, List.getElem?_append_right le_rfl, Nat.sub_self,
        List.getElem?_cons_zero, Option.getD_some, List.set_append_right _ _ le_rfl,
        List.set_cons_zero, ofNat_or_two_pow (mapBits_lt cur) hc8]
  have hlen : (out.modify cm (· ||| UInt8.ofNat (copymask <<< 1))).length = out.length :=
    List.length_modify _ _ _
  have hroom := h.room hne
  refine ⟨h.full, by simp; omega, ?_, h.cm_eq, ?_, ?_, fun _ => ?_⟩
  · rw [hmap, frameGroup_of_ne_nil (by simp)]
    simp
  · rw [hshift, List.length_append, List.length_singleton]
    congr 1
    omega
  · split <;> simp only [List.length_append, hlen] <;> omega
  · split <;> simp only [List.length_append, List.length_singleton, hlen] <;> omega

/-- At the end of the source the compressor's output frames the groups written. -/
theorem EncFrame.frames {s : List UInt8} (h : EncFrame dLen out cm copymask done cur)
    (ht : ItemsTile s 0 (done ++ [cur]).flatten s.length) : Frames s out (done ++ [cur]) := by
  refine ⟨fun g hg => ?_, fun g hg => ?_, by rw [frame_append_singleton, h.out_eq], ht⟩
  · rcases List.mem_append.mp hg with hg | hg
    · exact (h.full g hg).1
    · rw [List.mem_singleton.mp hg]
      exact h.cur_le
  · rw [List.dropLast_concat] at hg
    exact (h.full g hg).2

end EncFrame

/-- What the compressor's loop returns is good: its output fits `d_len`, and unless it gave up,
its output frames items that tile the whole source. -/
def CompressOk (s : List UInt8) (dLen : ℕ) (r : List UInt8 × Bool) : Prop :=
  r.1.length ≤ dLen ∧ (r.2 = false → ∃ gs, Frames s r.1 gs)

section Loop

variable {dLen base : ℕ}

/-- Where the source ends, the output frames the items written. -/
theorem compressOk_stop {cm copymask src : ℕ} {out : List UInt8} {done : List (List LzjbItem)}
    {cur : List LzjbItem} (h : EncFrame dLen out cm copymask done cur)
    (ht : ItemsTile s 0 (done ++ [cur]).flatten src) (hsrc : s.length ≤ src) :
    CompressOk s dLen (out, false) := by
  have hle : src ≤ s.length := by
    rcases hf : (done ++ [cur]).flatten with _ | ⟨it, its⟩
    · rw [hf] at ht
      simp only [ItemsTile] at ht
      omega
    · rw [hf] at ht
      exact ht.length_le.2 (List.cons_ne_nil _ _)
  obtain rfl : src = s.length := by omega
  exact ⟨h.fits, fun _ => ⟨_, h.frames ht⟩⟩

/-- The second half of a turn keeps the frame, given that the first half made room for one more
item; the rest of the loop is the induction hypothesis `ih`. -/
theorem compressOk_item {fuel src cm₁ mask₁ : ℕ} {out₁ : List UInt8} {lempel : ℕ → ℕ}
    {done₁ : List (List LzjbItem)} {cur₁ : List LzjbItem}
    (ih : ∀ src out cm copymask lempel done cur, EncFrame dLen out cm copymask done cur →
      ItemsTile s 0 (done ++ [cur]).flatten src → s.length - src ≤ fuel →
      CompressOk s dLen (lzjbCompressLoop s dLen base fuel src out cm copymask lempel))
    (hsrc : src < s.length) (hfuel : s.length - src ≤ fuel + 1)
    (hpush : ∀ it : LzjbItem, it.encode.length ≤ 2 → EncFrame dLen
      ((if it.isCopy then out₁.modify cm₁ (· ||| UInt8.ofNat mask₁) else out₁) ++ it.encode)
      cm₁ mask₁ done₁ (cur₁ ++ [it]))
    (ht : ItemsTile s 0 (done₁ ++ [cur₁]).flatten src) :
    let r := lzjbCompressItem s base src out₁ cm₁ mask₁ lempel
    CompressOk s dLen (lzjbCompressLoop s dLen base fuel r.1 r.2.1 cm₁ mask₁ r.2.2) := by
  obtain ⟨it, hv, hw, h₁, h₂⟩ := lzjbCompressItem_spec base src out₁ cm₁ mask₁ lempel hsrc
  intro r
  rw [h₁, h₂]
  refine ih _ _ _ _ _ done₁ (cur₁ ++ [it]) (hpush it hw) ?_ ?_
  · rw [show (done₁ ++ [cur₁ ++ [it]]).flatten = (done₁ ++ [cur₁]).flatten ++ [it] by simp]
    exact ht.snoc hv
  · have := LzjbItem.width_pos_of_valid hv
    omega

/-- **The compressor writes a frame.**  From a state that frames the items chosen so far, which
tile the source up to `src`, the loop writes no more than `d_len` bytes, and unless it gives up
its output frames items that tile the whole source. -/
theorem lzjbCompressLoop_frame (fuel : ℕ) :
    ∀ (src : ℕ) (out : List UInt8) (cm copymask : ℕ) (lempel : ℕ → ℕ)
      (done : List (List LzjbItem)) (cur : List LzjbItem), EncFrame dLen out cm copymask done cur →
      ItemsTile s 0 (done ++ [cur]).flatten src → s.length - src ≤ fuel →
      CompressOk s dLen (lzjbCompressLoop s dLen base fuel src out cm copymask lempel) := by
  induction fuel with
  | zero =>
    intro src out cm copymask lempel done cur h ht hfuel
    exact compressOk_stop h ht (by omega)
  | succ fuel ih =>
    intro src out cm copymask lempel done cur h ht hfuel
    rw [lzjbCompressLoop]
    by_cases hsrc : src < s.length
    swap
    · rw [if_neg hsrc]
      exact compressOk_stop h ht (by omega)
    rw [if_pos hsrc]
    by_cases hbail : copymask <<< 1 = 1 <<< nbby ∧ dLen ≤ out.length + 1 + 2 * nbby
    · rw [if_pos hbail]
      exact ⟨h.fits, fun hf => absurd hf (by simp)⟩
    rw [if_neg hbail]
    by_cases hnew : copymask <<< 1 = 1 <<< nbby
    · -- the mask ran out: a zero copy map opens a new group
      rw [if_pos hnew]
      exact compressOk_item ih hsrc hfuel (h.push_new hnew (fun h' => hbail ⟨hnew, h'⟩))
        (by simpa using ht)
    · rw [if_neg hnew]
      exact compressOk_item ih hsrc hfuel (h.push_same hnew) ht

/-- Each turn moves past at least one source byte. -/
theorem lt_lzjbCompressItem {src : ℕ} (base : ℕ) (out : List UInt8) (cm mask : ℕ)
    (lempel : ℕ → ℕ) (hsrc : src < s.length) :
    src < (lzjbCompressItem s base src out cm mask lempel).1 := by
  obtain ⟨it, hv, -, h₁, -⟩ := lzjbCompressItem_spec base src out cm mask lempel hsrc
  have := LzjbItem.width_pos_of_valid hv
  omega

/-- **The compressor terminates**: with fuel for every byte left, one more unit changes nothing. -/
theorem lzjbCompressLoop_fuel (fuel : ℕ) :
    ∀ (src : ℕ) (out : List UInt8) (cm copymask : ℕ) (lempel : ℕ → ℕ), s.length - src ≤ fuel →
      lzjbCompressLoop s dLen base (fuel + 1) src out cm copymask lempel =
        lzjbCompressLoop s dLen base fuel src out cm copymask lempel := by
  induction fuel with
  | zero =>
    intro src out cm copymask lempel hfuel
    conv_lhs => rw [lzjbCompressLoop]
    rw [if_neg (by omega)]
    rfl
  | succ fuel ih =>
    intro src out cm copymask lempel hfuel
    conv_lhs => rw [lzjbCompressLoop]
    conv_rhs => rw [lzjbCompressLoop]
    by_cases hsrc : src < s.length
    · rw [if_pos hsrc, if_pos hsrc]
      by_cases hbail : copymask <<< 1 = 1 <<< nbby ∧ dLen ≤ out.length + 1 + 2 * nbby
      · rw [if_pos hbail, if_pos hbail]
      · rw [if_neg hbail, if_neg hbail]
        -- both sides start the same turn; the rest of the loop has a byte less to go
        rcases (if copymask <<< 1 = 1 <<< nbby then (out ++ [0], out.length, 1)
          else (out, cm, copymask <<< 1)) with ⟨out₁, cm₁, mask₁⟩
        have := lt_lzjbCompressItem base out₁ cm₁ mask₁ lempel hsrc
        exact ih _ _ _ _ _ (by omega)
    · rw [if_neg hsrc, if_neg hsrc]

end Loop

/-- **LZJB round trip.**  `lzjb_compress` writes no more than `d_len` bytes, and stops: more fuel
than the source has bytes changes nothing.  When it returns less than `s_len` it did not give
up, and what it wrote decompresses, into a destination of `s_len` bytes, to the source: the
decompressor returns 0 and loads nothing past the `c` bytes written. -/
theorem lzjb_round_trip (s : List UInt8) (dLen base : ℕ) :
    (lzjbCompress s dLen base).1.length ≤ dLen ∧
      (∀ fuel, s.length ≤ fuel →
        lzjbCompressLoop s dLen base fuel 0 [] 0 (1 <<< (nbby - 1)) (fun _ => 0) =
          lzjbCompressLoop s dLen base s.length 0 [] 0 (1 <<< (nbby - 1)) (fun _ => 0)) ∧
      ((lzjbCompress s dLen base).2 < s.length → ∀ d : List UInt8, d.length = s.length →
        lzjbDecompress (lzjbCompress s dLen base).1 d = .ok (0, s)) := by
  have hok : CompressOk s dLen
      (lzjbCompressLoop s dLen base s.length 0 [] 0 (1 <<< (nbby - 1)) fun _ => 0) :=
    lzjbCompressLoop_frame s.length 0 [] 0 _ (fun _ => 0) [] [] (EncFrame.init dLen) rfl (by omega)
  refine ⟨hok.1, fun fuel hfuel => ?_, fun hc d hd => ?_⟩
  · induction fuel, hfuel using Nat.le_induction with
    | base => rfl
    | succ fuel hle ih => rw [lzjbCompressLoop_fuel fuel 0 [] 0 _ _ (by omega), ih]
  · -- a returned length below `s_len` means the compressor did not give up
    have hgave : (lzjbCompressLoop s dLen base s.length 0 [] 0 (1 <<< (nbby - 1))
        (fun _ => 0)).2 = false := by
      by_contra hne
      rw [Bool.not_eq_false] at hne
      simp [lzjbCompress, hne] at hc
    obtain ⟨gs, hgs⟩ := hok.2 hgave
    exact lzjbDecompress_frame hgs hd

/-- Two hundred zero bytes compress, into a destination of the same size, below their length, so
the round trip applies to them. -/
theorem lzjb_round_trip_zeros :
    (lzjbCompress (List.replicate 200 0) 200 0).2 < 200 ∧
      ∀ d : List UInt8, d.length = 200 →
        lzjbDecompress (lzjbCompress (List.replicate 200 0) 200 0).1 d =
          .ok (0, List.replicate 200 0) := by
  have hc : (lzjbCompress (List.replicate 200 0) 200 0).2 < 200 := by decide +kernel
  exact ⟨hc, fun d hd => (lzjb_round_trip (List.replicate 200 0) 200 0).2.2 hc d hd⟩

end Encode

end Zfs
