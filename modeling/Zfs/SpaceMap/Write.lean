import Zfs.SpaceMap.Iterate

/-!
# SpaceMap/Write — what `space_map_write` appends, and the readers on what it wrote

`space_map_write` appends a debug word and, for each segment, the entries of
`space_map_write_seg`, one run of at most `SM_RUN_MAX` (one-word entries) or `SM2_RUN_MAX`
(two-word entries) units at a time, and a padding debug word before a two-word entry that would
start in the last word of a block.  Read back as numbers, the words it encodes are of the kind
their prefix says, their fields decode to the offset and run written, and the entries lie
inside the map, so every check of the readers passes (`SpaceMap.entryChecked_of_le`).  Each
step keeps a layout (`SmLayout.appendItem`), so every map that `space_map_write` builds has one:

* `SmWritten.layout` — a written map is laid out as debug words and entries;
* `spaceMapIncrementalDestroy_reverse` — on a written map, `space_map_incremental_destroy` calls
  its callback on the entries that `space_map_iterate` visits, in the reverse order; with a
  callback that always returns 0 it empties the map and takes the `SM_ALLOC` runs less the
  `SM_FREE` runs off `smp_alloc`, and a callback that fails leaves the words through the entry it
  failed on, with exactly the finished entries taken off `smp_alloc`.
-/

namespace Zfs

/-! ## The encoded words as numbers -/

section Words

theorem toNat_smPrefixDecode (w : UInt64) : (smPrefixDecode w).toNat = w.toNat / 2 ^ 62 := by
  have hp : (smPrefixDecode w).toNat = w.toNat / 2 ^ 62 % 2 ^ 2 :=
    toNat_bf64Get w (by norm_num) (by norm_num)
  have hw := w.toNat_lt
  rw [hp]
  norm_num at hw ⊢
  omega

theorem smEntryIsDebug_iff (w : UInt64) : smEntryIsDebug w = true ↔ w.toNat / 2 ^ 62 = 2 := by
  rw [smEntryIsDebug, beq_iff_eq, ← UInt64.toNat_inj, toNat_smPrefixDecode]
  rfl

theorem smEntryIsSingleWord_iff (w : UInt64) :
    smEntryIsSingleWord w = true ↔ w.toNat / 2 ^ 62 < 2 := by
  have hw := w.toNat_lt
  simp only [smEntryIsSingleWord, Bool.and_eq_true, bne_iff_ne, ne_eq, ← UInt64.toNat_inj,
    toNat_smPrefixDecode]
  norm_num at hw ⊢
  constructor
  · intro h
    have : (smDebugPrefix).toNat = 2 := rfl
    have : (sm2Prefix).toNat = 3 := rfl
    omega
  · intro h
    exact ⟨by rw [show (smDebugPrefix).toNat = 2 from rfl]; omega,
      by rw [show (sm2Prefix).toNat = 3 from rfl]; omega⟩

theorem smEntryIsDoubleWord_iff (w : UInt64) :
    smEntryIsDoubleWord w = true ↔ w.toNat / 2 ^ 62 = 3 := by
  rw [smEntryIsDoubleWord, beq_iff_eq, ← UInt64.toNat_inj, toNat_smPrefixDecode]
  rfl

theorem toNat_smOffsetDecode (w : UInt64) :
    (smOffsetDecode w).toNat = w.toNat / 2 ^ 16 % 2 ^ 47 :=
  toNat_bf64Get w (by norm_num) (by norm_num)

theorem toNat_sm2OffsetDecode (w : UInt64) : (sm2OffsetDecode w).toNat = w.toNat % 2 ^ 63 := by
  have h : (sm2OffsetDecode w).toNat = w.toNat / 2 ^ 0 % 2 ^ 63 :=
    toNat_bf64Get w (by norm_num) (by norm_num)
  simpa using h

theorem toNat_smRunDecode (w : UInt64) : (smRunDecode w).toNat = w.toNat % 2 ^ 15 + 1 := by
  have h : (bf64Get w 0 15).toNat = w.toNat % 2 ^ 15 := by
    simpa using @toNat_bf64Get 0 15 w (by norm_num) (by norm_num)
  have := Nat.mod_lt w.toNat (show 0 < 2 ^ 15 by norm_num)
  rw [smRunDecode, UInt64.toNat_add, h, UInt64.toNat_one]
  norm_num at this ⊢
  omega

theorem toNat_sm2RunDecode (w : UInt64) :
    (sm2RunDecode w).toNat = w.toNat / 2 ^ 24 % 2 ^ 36 + 1 := by
  have h : (bf64Get w 24 36).toNat = w.toNat / 2 ^ 24 % 2 ^ 36 :=
    toNat_bf64Get w (by norm_num) (by norm_num)
  have := Nat.mod_lt (w.toNat / 2 ^ 24) (show 0 < 2 ^ 36 by norm_num)
  rw [sm2RunDecode, UInt64.toNat_add, h, UInt64.toNat_one]
  norm_num at this ⊢
  omega

theorem toNat_smRunMax : smRunMax.toNat = 2 ^ 15 := by decide

theorem toNat_sm2RunMax : sm2RunMax.toNat = 2 ^ 36 := by decide

/-- A one-word entry as a number: offset, type and run side by side. -/
theorem toNat_singleWord (o t r : UInt64) :
    (smOffsetEncode o ||| smTypeEncode t ||| smRunEncode r).toNat =
      o.toNat % 2 ^ 47 * 2 ^ 16 + t.toNat % 2 * 2 ^ 15 + (r - 1).toNat % 2 ^ 15 := by
  have hA : (smOffsetEncode o).toNat = o.toNat % 2 ^ 47 * 2 ^ 16 :=
    toNat_bf64Encode o (by norm_num) (by norm_num)
  have hB : (smTypeEncode t).toNat = t.toNat % 2 ^ 1 * 2 ^ 15 :=
    toNat_bf64Encode t (by norm_num) (by norm_num)
  have hC : (smRunEncode r).toNat = (r - 1).toNat % 2 ^ 15 * 2 ^ 0 :=
    toNat_bf64Encode (r - 1) (by norm_num) (by norm_num)
  norm_num at hA hB hC
  have hAB : (smOffsetEncode o ||| smTypeEncode t).toNat =
      (smOffsetEncode o).toNat + (smTypeEncode t).toNat :=
    toNat_or_of_lt 16 (by norm_num; omega) (by norm_num; omega)
  rw [toNat_or_of_lt 15 (by rw [hAB]; norm_num; omega) (by norm_num; omega), hAB]
  norm_num
  omega

/-- The first word of a two-word entry as a number: prefix, run and vdev. -/
theorem toNat_doubleHead (r v : UInt64) :
    (smPrefixEncode sm2Prefix ||| sm2RunEncode r ||| sm2VdevEncode v).toNat =
      3 * 2 ^ 62 + (r - 1).toNat % 2 ^ 36 * 2 ^ 24 + v.toNat % 2 ^ 24 := by
  have hA : (smPrefixEncode sm2Prefix).toNat = sm2Prefix.toNat % 2 ^ 2 * 2 ^ 62 :=
    toNat_bf64Encode sm2Prefix (by norm_num) (by norm_num)
  have hB : (sm2RunEncode r).toNat = (r - 1).toNat % 2 ^ 36 * 2 ^ 24 :=
    toNat_bf64Encode (r - 1) (by norm_num) (by norm_num)
  have hC : (sm2VdevEncode v).toNat = v.toNat % 2 ^ 24 * 2 ^ 0 :=
    toNat_bf64Encode v (by norm_num) (by norm_num)
  rw [show sm2Prefix.toNat = 3 from rfl] at hA
  norm_num at hA hB hC
  have hAB : (smPrefixEncode sm2Prefix ||| sm2RunEncode r).toNat =
      (smPrefixEncode sm2Prefix).toNat + (sm2RunEncode r).toNat :=
    toNat_or_of_lt 62 (by norm_num; omega) (by norm_num; omega)
  rw [toNat_or_of_lt 24 (by rw [hAB]; norm_num; omega) (by norm_num; omega), hAB]
  norm_num
  omega

/-- The second word of a two-word entry as a number: type and offset. -/
theorem toNat_doubleTail (t o : UInt64) :
    (sm2TypeEncode t ||| sm2OffsetEncode o).toNat = t.toNat % 2 * 2 ^ 63 + o.toNat % 2 ^ 63 := by
  have hA : (sm2TypeEncode t).toNat = t.toNat % 2 ^ 1 * 2 ^ 63 :=
    toNat_bf64Encode t (by norm_num) (by norm_num)
  have hB : (sm2OffsetEncode o).toNat = o.toNat % 2 ^ 63 * 2 ^ 0 :=
    toNat_bf64Encode o (by norm_num) (by norm_num)
  norm_num at hA hB
  rw [toNat_or_of_lt 63 (by norm_num; omega) (by norm_num; omega)]
  norm_num
  omega

/-- A debug word as a number: prefix, action, sync pass and txg. -/
theorem toNat_debugWord (a p x : UInt64) :
    (smPrefixEncode smDebugPrefix ||| smDebugActionEncode a ||| smDebugSyncpassEncode p |||
      smDebugTxgEncode x).toNat =
      2 * 2 ^ 62 + a.toNat % 4 * 2 ^ 60 + p.toNat % 2 ^ 10 * 2 ^ 50 + x.toNat % 2 ^ 50 := by
  have hP : (smPrefixEncode smDebugPrefix).toNat = smDebugPrefix.toNat % 2 ^ 2 * 2 ^ 62 :=
    toNat_bf64Encode smDebugPrefix (by norm_num) (by norm_num)
  have hA : (smDebugActionEncode a).toNat = a.toNat % 2 ^ 2 * 2 ^ 60 :=
    toNat_bf64Encode a (by norm_num) (by norm_num)
  have hS : (smDebugSyncpassEncode p).toNat = p.toNat % 2 ^ 10 * 2 ^ 50 :=
    toNat_bf64Encode p (by norm_num) (by norm_num)
  have hX : (smDebugTxgEncode x).toNat = x.toNat % 2 ^ 50 * 2 ^ 0 :=
    toNat_bf64Encode x (by norm_num) (by norm_num)
  rw [show smDebugPrefix.toNat = 2 from rfl] at hP
  norm_num at hP hA hS hX
  have hPA : (smPrefixEncode smDebugPrefix ||| smDebugActionEncode a).toNat =
      (smPrefixEncode smDebugPrefix).toNat + (smDebugActionEncode a).toNat :=
    toNat_or_of_lt 62 (by norm_num; omega) (by norm_num; omega)
  have hPAS : (smPrefixEncode smDebugPrefix ||| smDebugActionEncode a |||
      smDebugSyncpassEncode p).toNat =
      (smPrefixEncode smDebugPrefix ||| smDebugActionEncode a).toNat +
        (smDebugSyncpassEncode p).toNat :=
    toNat_or_of_lt 60 (by rw [hPA]; norm_num; omega) (by norm_num; omega)
  rw [toNat_or_of_lt 50 (by rw [hPAS, hPA]; norm_num; omega) (by norm_num; omega), hPAS, hPA]
  norm_num
  omega

theorem smEntryIsSingleWord_singleWord (o t r : UInt64) :
    smEntryIsSingleWord (smOffsetEncode o ||| smTypeEncode t ||| smRunEncode r) = true := by
  rw [smEntryIsSingleWord_iff, toNat_singleWord]
  have := Nat.mod_lt o.toNat (show 0 < 2 ^ 47 by norm_num)
  have := Nat.mod_lt (r - 1).toNat (show 0 < 2 ^ 15 by norm_num)
  norm_num at *
  omega

theorem smEntryIsDoubleWord_doubleHead (r v : UInt64) :
    smEntryIsDoubleWord (smPrefixEncode sm2Prefix ||| sm2RunEncode r ||| sm2VdevEncode v) = true := by
  rw [smEntryIsDoubleWord_iff, toNat_doubleHead]
  have := Nat.mod_lt (r - 1).toNat (show 0 < 2 ^ 36 by norm_num)
  have := Nat.mod_lt v.toNat (show 0 < 2 ^ 24 by norm_num)
  norm_num at *
  omega

theorem smEntryIsDebug_debugWord (a p x : UInt64) :
    smEntryIsDebug (smPrefixEncode smDebugPrefix ||| smDebugActionEncode a |||
      smDebugSyncpassEncode p ||| smDebugTxgEncode x) = true := by
  rw [smEntryIsDebug_iff, toNat_debugWord]
  have := Nat.mod_lt p.toNat (show 0 < 2 ^ 10 by norm_num)
  have := Nat.mod_lt x.toNat (show 0 < 2 ^ 50 by norm_num)
  norm_num at *
  omega

/-- A one-word entry's offset reads back as the offset written, cut to 47 bits. -/
theorem toNat_smOffsetDecode_singleWord (o t r : UInt64) :
    (smOffsetDecode (smOffsetEncode o ||| smTypeEncode t ||| smRunEncode r)).toNat =
      o.toNat % 2 ^ 47 := by
  rw [toNat_smOffsetDecode, toNat_singleWord]
  have := Nat.mod_lt (r - 1).toNat (show 0 < 2 ^ 15 by norm_num)
  norm_num at *
  omega

/-- A one-word entry's run reads back as the run written, when it fits. -/
theorem smRunDecode_singleWord (o t : UInt64) {r : UInt64} (h1 : 1 ≤ r.toNat)
    (h2 : r.toNat ≤ 2 ^ 15) :
    smRunDecode (smOffsetEncode o ||| smTypeEncode t ||| smRunEncode r) = r := by
  apply UInt64.toNat_inj.mp
  have hr : (r - 1).toNat = r.toNat - 1 := UInt64.toNat_sub_of_le _ _ (by
    rw [UInt64.le_iff_toNat_le]; simpa using h1)
  rw [toNat_smRunDecode, toNat_singleWord, hr]
  norm_num at *
  omega

/-- A two-word entry's offset reads back as the offset written, cut to 63 bits. -/
theorem toNat_sm2OffsetDecode_doubleTail (t o : UInt64) :
    (sm2OffsetDecode (sm2TypeEncode t ||| sm2OffsetEncode o)).toNat = o.toNat % 2 ^ 63 := by
  rw [toNat_sm2OffsetDecode, toNat_doubleTail]
  norm_num

/-- A two-word entry's run reads back as the run written, when it fits. -/
theorem sm2RunDecode_doubleHead (v : UInt64) {r : UInt64} (h1 : 1 ≤ r.toNat)
    (h2 : r.toNat ≤ 2 ^ 36) :
    sm2RunDecode (smPrefixEncode sm2Prefix ||| sm2RunEncode r ||| sm2VdevEncode v) = r := by
  apply UInt64.toNat_inj.mp
  have hr : (r - 1).toNat = r.toNat - 1 := UInt64.toNat_sub_of_le _ _ (by
    rw [UInt64.le_iff_toNat_le]; simpa using h1)
  rw [toNat_sm2RunDecode, toNat_doubleHead, hr]
  have := Nat.mod_lt v.toNat (show 0 < 2 ^ 24 by norm_num)
  norm_num at *
  omega

end Words

/-! ## The checks of an entry inside the map -/

namespace SpaceMap

/-- A map placed as metaslabs place theirs: `sm_start` a multiple of `1 << sm_shift`, and the
range ending below `2^64`. -/
structure WellPlaced (sm : SpaceMap) : Prop where
  start_aligned : sm.smStart.toNat % 2 ^ sm.smShift = 0
  end_lt : sm.smStart.toNat + sm.smSize.toNat < 2 ^ 64

variable (sm : SpaceMap)

/-- The shift amount `sm_shift` as the machine takes it. -/
theorem toNat_smShift_mod : sm.smShift.toUInt64.toNat % 64 = sm.smShift := by
  simp [Nat.mod_eq_of_lt sm.shift_lt, Nat.mod_eq_of_lt (sm.shift_lt.trans (by norm_num) :
    sm.smShift < 18446744073709551616)]

theorem toNat_shiftUp (x : UInt64) : (sm.shiftUp x).toNat = x.toNat * 2 ^ sm.smShift % 2 ^ 64 := by
  rw [shiftUp, UInt64.toNat_shiftLeft, toNat_smShift_mod, Nat.shiftLeft_eq]

theorem toNat_phase (x : UInt64) : (sm.phase x).toNat = x.toNat % 2 ^ sm.smShift := by
  rw [phase, UInt64.toNat_and, toNat_mask sm.shift_lt, Nat.and_two_pow_sub_one_eq_mod]

/-- **An entry inside the map passes the checks of both readers**: from a start that is a
multiple of `1 << sm_shift`, a run of at least one unit that ends inside the map lies inside
it, and its offset and run are multiples of the unit. -/
theorem entryChecked_of_le (hg : sm.WellPlaced) {d r : UInt64} (hr : 0 < r.toNat)
    (hfit : (d.toNat + r.toNat) * 2 ^ sm.smShift ≤ sm.smSize.toNat) (type : Maptype)
    (vdevId : UInt64) :
    sm.entryAligned (sm.entryOf type vdevId d r) = true ∧
      sm.entryInRange (sm.entryOf type vdevId d r) = true := by
  have hP : 0 < 2 ^ sm.smShift := Nat.two_pow_pos _
  have hend := hg.end_lt
  have hsplit : (d.toNat + r.toNat) * 2 ^ sm.smShift =
      d.toNat * 2 ^ sm.smShift + r.toNat * 2 ^ sm.smShift := Nat.add_mul _ _ _
  have hrP : 2 ^ sm.smShift ≤ r.toNat * 2 ^ sm.smShift := Nat.le_mul_of_pos_left _ hr
  have hd : (sm.shiftUp d).toNat = d.toNat * 2 ^ sm.smShift := by
    rw [toNat_shiftUp]; exact Nat.mod_eq_of_lt (by omega)
  have hr' : (sm.shiftUp r).toNat = r.toNat * 2 ^ sm.smShift := by
    rw [toNat_shiftUp]; exact Nat.mod_eq_of_lt (by omega)
  have hoff : (sm.shiftUp d + sm.smStart).toNat = d.toNat * 2 ^ sm.smShift + sm.smStart.toNat := by
    rw [UInt64.toNat_add, hd]; exact Nat.mod_eq_of_lt (by omega)
  have hlast : (sm.shiftUp d + sm.smStart + sm.shiftUp r).toNat =
      d.toNat * 2 ^ sm.smShift + sm.smStart.toNat + r.toNat * 2 ^ sm.smShift := by
    rw [UInt64.toNat_add, hoff, hr']; exact Nat.mod_eq_of_lt (by omega)
  have hmap : (sm.smStart + sm.smSize).toNat = sm.smStart.toNat + sm.smSize.toNat := by
    rw [UInt64.toNat_add]; exact Nat.mod_eq_of_lt hend
  constructor
  · simp only [entryAligned, entryOf, Bool.and_eq_true, beq_iff_eq, ← UInt64.toNat_inj,
      toNat_phase, hoff, hr', UInt64.toNat_zero]
    exact ⟨by rw [Nat.add_mod, Nat.mul_mod_left, hg.start_aligned, Nat.zero_mod], Nat.mul_mod_left _ _⟩
  · simp only [entryInRange, entryOf, Bool.and_eq_true, decide_eq_true_eq,
      UInt64.le_iff_toNat_le, UInt64.lt_iff_toNat_lt, hoff, hr', hlast, hmap]
    omega

end SpaceMap

/-! ## Appending items

Every writer appends words at `smp_length`.  `SameGeometry` says what they leave alone: all
that the readers check an entry against.  `SmLayout.appendItem` is the one step that keeps a
layout, and the writers below are instances of it. -/

namespace SpaceMap

variable (sm : SpaceMap)

/-- The words `ws` appended one after the other. -/
def appendWords (ws : List UInt64) : SpaceMap := ws.foldl appendWord sm

/-- `sm'` is `sm` with another log: the object, `smp_length` and `smp_alloc` may differ, the
geometry that the readers check against may not. -/
def SameGeometry (sm' : SpaceMap) : Prop :=
  ∃ (obj : ℕ → UInt64) (len : ℕ) (alloc : ℤ),
    sm' = { sm with smObject := obj, smpLength := len, smpAlloc := alloc }

theorem SameGeometry.refl : sm.SameGeometry sm := ⟨sm.smObject, sm.smpLength, sm.smpAlloc, rfl⟩

@[simp] theorem appendWords_nil : sm.appendWords [] = sm := rfl

theorem appendWords_cons (w : UInt64) (ws : List UInt64) :
    sm.appendWords (w :: ws) = (sm.appendWord w).appendWords ws := rfl

@[simp] theorem smpLength_appendWord (w : UInt64) : (sm.appendWord w).smpLength = sm.smpLength + 8 :=
  rfl

theorem sameGeometry_appendWord (w : UInt64) : sm.SameGeometry (sm.appendWord w) :=
  ⟨_, _, _, rfl⟩

variable {sm}

theorem SameGeometry.trans {sm₁ sm₂ : SpaceMap} (h₁ : sm.SameGeometry sm₁)
    (h₂ : sm₁.SameGeometry sm₂) : sm.SameGeometry sm₂ := by
  obtain ⟨_, _, _, rfl⟩ := h₁
  obtain ⟨obj, len, alloc, rfl⟩ := h₂
  exact ⟨obj, len, alloc, rfl⟩

theorem SameGeometry.smShift_eq {sm' : SpaceMap} (h : sm.SameGeometry sm') :
    sm'.smShift = sm.smShift := by
  obtain ⟨_, _, _, rfl⟩ := h
  rfl

theorem SameGeometry.smSize_eq {sm' : SpaceMap} (h : sm.SameGeometry sm') :
    sm'.smSize = sm.smSize := by
  obtain ⟨_, _, _, rfl⟩ := h
  rfl

theorem SameGeometry.blockWords_eq {sm' : SpaceMap} (h : sm.SameGeometry sm') :
    sm'.blockWords = sm.blockWords := by
  obtain ⟨_, _, _, rfl⟩ := h
  rfl

theorem SameGeometry.wellPlaced {sm' : SpaceMap} (h : sm.SameGeometry sm') (hg : sm.WellPlaced) :
    sm'.WellPlaced := by
  obtain ⟨_, _, _, rfl⟩ := h
  exact ⟨hg.start_aligned, hg.end_lt⟩

theorem SameGeometry.segOk {sm' : SpaceMap} (h : sm.SameGeometry sm') {rs : UInt64 × UInt64}
    (hs : sm.SegOk rs) : sm'.SegOk rs := by
  obtain ⟨_, _, _, rfl⟩ := h
  exact hs

theorem sameGeometry_appendWords : ∀ (ws : List UInt64) (sm : SpaceMap),
    sm.SameGeometry (sm.appendWords ws)
  | [], sm => SameGeometry.refl sm
  | w :: ws, sm =>
    (sm.sameGeometry_appendWord w).trans (sameGeometry_appendWords ws (sm.appendWord w))

theorem smpLength_appendWords : ∀ (ws : List UInt64) (sm : SpaceMap),
    (sm.appendWords ws).smpLength = sm.smpLength + 8 * ws.length
  | [], sm => rfl
  | w :: ws, sm => by
    rw [appendWords_cons, smpLength_appendWords ws, smpLength_appendWord, List.length_cons]
    omega

/-- The word appended is read at the old end; the words before are not written. -/
theorem readWords_appendWord (sm : SpaceMap) (w : UInt64) :
    (sm.appendWord w).readWords 0 (sm.smpLength / 8 + 1) = sm.readWords 0 (sm.smpLength / 8) ++ [w] := by
  have hkeep : ∀ i ∈ List.range' 0 (sm.smpLength / 8),
      Function.update sm.smObject (sm.smpLength / 8) w i = sm.smObject i := fun i hi =>
    Function.update_of_ne (by rw [List.mem_range'_1] at hi; omega) _ _
  simp only [readWords, appendWord, List.range'_concat, List.map_append, List.map_congr_left hkeep]
  simp

theorem readWords_appendWords : ∀ (ws : List UInt64) (sm : SpaceMap),
    (sm.appendWords ws).readWords 0 (sm.smpLength / 8 + ws.length) =
      sm.readWords 0 (sm.smpLength / 8) ++ ws
  | [], sm => by simp
  | w :: ws, sm => by
    have hlen : (sm.appendWord w).smpLength / 8 = sm.smpLength / 8 + 1 := by
      rw [smpLength_appendWord]
      omega
    rw [appendWords_cons, List.length_cons,
      show sm.smpLength / 8 + (ws.length + 1) = (sm.appendWord w).smpLength / 8 + ws.length by omega,
      readWords_appendWords ws, hlen, readWords_appendWord, List.append_assoc, List.singleton_append]

end SpaceMap

/-- A map with an empty log is laid out as no items. -/
theorem SmLayout.empty {sm : SpaceMap} (h : sm.smpLength = 0) : SmLayout sm [] where
  words := by simp [h, SpaceMap.readWords]
  length := by simp [h]
  kinded := by simp
  blocked := trivial
  checked := by simp

/-- A layout does not read `smp_alloc`. -/
theorem SmLayout.withAlloc {sm : SpaceMap} {its : List SmItem} (hl : SmLayout sm its) (alloc : ℤ) :
    SmLayout { sm with smpAlloc := alloc } its :=
  ⟨hl.words, hl.length, hl.kinded, hl.blocked, hl.checked⟩

/-- **Appending an item keeps a layout**: the words before are not written, and the item is of
its kind, starts where the blocks allow it, and has its entry pass the checks. -/
theorem SmLayout.appendItem {sm : SpaceMap} {its : List SmItem} (hl : SmLayout sm its)
    {it : SmItem} (hk : it.WellKinded)
    (hb : it.isDouble → sm.smpLength / 8 % sm.blockWords + 1 ≠ sm.blockWords)
    (hc : ∀ e ∈ sm.entries [it], sm.entryAligned e = true ∧ sm.entryInRange e = true) :
    SmLayout (sm.appendWords it.words) (its ++ [it]) := by
  obtain ⟨obj, len, alloc, hsm⟩ := SpaceMap.sameGeometry_appendWords it.words sm
  have hlen := SpaceMap.smpLength_appendWords it.words sm
  have hn : sm.smpLength / 8 = (its.flatMap SmItem.words).length := by
    rw [hl.length]
    omega
  have hlen8 : (sm.appendWords it.words).smpLength / 8 = sm.smpLength / 8 + it.words.length := by
    omega
  refine ⟨?_, ?_, ?_, ?_, ?_⟩
  · rw [hlen8, SpaceMap.readWords_appendWords, hl.words, List.flatMap_append, List.flatMap_singleton]
  · rw [hlen, hl.length, List.flatMap_append, List.flatMap_singleton, List.length_append]
    omega
  · intro x hx
    rcases List.mem_append.mp hx with hx | hx
    · exact hl.kinded x hx
    · rw [List.mem_singleton.mp hx]
      exact hk
  · rw [hsm]
    refine (blocked_append 0 its [it]).mpr ⟨hl.blocked, fun hd => ?_, trivial⟩
    rw [Nat.zero_add, ← hn]
    exact hb hd
  · rw [hsm]
    intro e he
    rw [SpaceMap.entries_append, List.mem_append] at he
    rcases he with he | he
    · exact hl.checked e he
    · exact hc e he

/-! ## The writers keep a layout -/

/-- The item of the words that `writeEntry` appends. -/
def entryItem (maptype : Maptype) (vdevId : UInt64) : SmWords → UInt64 → UInt64 → SmItem
  | .one, start, runLen =>
    .single (smOffsetEncode start ||| smTypeEncode maptype.toUInt64 ||| smRunEncode runLen)
  | .two, start, runLen =>
    .double (smPrefixEncode sm2Prefix ||| sm2RunEncode runLen ||| sm2VdevEncode vdevId)
      (sm2TypeEncode maptype.toUInt64 ||| sm2OffsetEncode start)

section Writers

variable (maptype : Maptype) (vdevId : UInt64)

theorem entryItem_wellKinded (words : SmWords) (start runLen : UInt64) :
    (entryItem maptype vdevId words start runLen).WellKinded := by
  cases words
  · exact smEntryIsSingleWord_singleWord _ _ _
  · exact smEntryIsDoubleWord_doubleHead _ _

theorem isDouble_entryItem {words : SmWords} {start runLen : UInt64}
    (h : (entryItem maptype vdevId words start runLen).isDouble = true) : words = .two := by
  cases words
  · simp [entryItem, SmItem.isDouble] at h
  · rfl

theorem SmWords.one_le_toNat_runMax (words : SmWords) : 1 ≤ words.runMax.toNat := by
  cases words
  · rw [SmWords.runMax, toNat_smRunMax]
    norm_num
  · rw [SmWords.runMax, toNat_sm2RunMax]
    norm_num

/-- The entry of a run of at least one and at most `runMax` units inside the map passes the
checks: its offset reads back as at most the one written, and its run as the one written. -/
theorem entryItem_checked {sm : SpaceMap} (hg : sm.WellPlaced) (words : SmWords)
    {start runLen : UInt64} (h1 : 1 ≤ runLen.toNat) (hmax : runLen.toNat ≤ words.runMax.toNat)
    (hfit : (start.toNat + runLen.toNat) * 2 ^ sm.smShift ≤ sm.smSize.toNat) :
    ∀ e ∈ sm.entries [entryItem maptype vdevId words start runLen],
      sm.entryAligned e = true ∧ sm.entryInRange e = true := by
  cases words with
  | one =>
    rw [SmWords.runMax, toNat_smRunMax] at hmax
    have hd := toNat_smOffsetDecode_singleWord start maptype.toUInt64 runLen
    have hle := Nat.mod_le start.toNat (2 ^ 47)
    simp only [entryItem, SpaceMap.entries_single, SpaceMap.entries_nil, List.mem_singleton,
      forall_eq, SpaceMap.singleEntry, smRunDecode_singleWord _ _ h1 hmax]
    exact sm.entryChecked_of_le hg (by omega)
      (le_trans (Nat.mul_le_mul_right _ (by omega)) hfit) _ _
  | two =>
    rw [SmWords.runMax, toNat_sm2RunMax] at hmax
    have hd := toNat_sm2OffsetDecode_doubleTail maptype.toUInt64 start
    have hle := Nat.mod_le start.toNat (2 ^ 63)
    simp only [entryItem, SpaceMap.entries_double, SpaceMap.entries_nil, List.mem_singleton,
      forall_eq, SpaceMap.doubleEntry, sm2RunDecode_doubleHead _ h1 hmax]
    exact sm.entryChecked_of_le hg (by omega)
      (le_trans (Nat.mul_le_mul_right _ (by omega)) hfit) _ _

namespace SpaceMap

variable (sm : SpaceMap)

theorem writeEntry_eq_appendWords (words : SmWords) (start runLen : UInt64) :
    sm.writeEntry maptype vdevId words start runLen =
      sm.appendWords (entryItem maptype vdevId words start runLen).words := by
  cases words <;> rfl

theorem sameGeometry_padForEntry (words : SmWords) : sm.SameGeometry (sm.padForEntry words) := by
  unfold padForEntry
  split_ifs
  · exact sm.sameGeometry_appendWord _
  · exact SameGeometry.refl sm

theorem sameGeometry_writeEntry (words : SmWords) (start runLen : UInt64) :
    sm.SameGeometry (sm.writeEntry maptype vdevId words start runLen) := by
  rw [writeEntry_eq_appendWords]
  exact sameGeometry_appendWords _ sm

end SpaceMap

/-- The padding keeps a layout, and after it a two-word entry does not start in the last word
of a block. -/
theorem SmLayout.padForEntry {sm : SpaceMap} {its : List SmItem} (hl : SmLayout sm its)
    (words : SmWords) :
    ∃ pad, SmLayout (sm.padForEntry words) (its ++ pad) ∧
      (words = .two → (sm.padForEntry words).smpLength / 8 % sm.blockWords + 1 ≠ sm.blockWords) := by
  unfold SpaceMap.padForEntry
  split_ifs with h
  · refine ⟨[.debug smPaddingWord], hl.appendItem
      (show (SmItem.debug smPaddingWord).WellKinded from smEntryIsDebug_debugWord 0 0 0)
      (by simp [SmItem.isDouble]) (by simp), fun _ => ?_⟩
    have hW := sm.two_le_blockWords
    have hmod : (sm.smpLength / 8 + 1) % sm.blockWords = 0 := by
      rw [Nat.add_mod, Nat.mod_eq_of_lt (show 1 < sm.blockWords by omega), h.2, Nat.mod_self]
    rw [SpaceMap.smpLength_appendWord, show (sm.smpLength + 8) / 8 = sm.smpLength / 8 + 1 by omega,
      hmod]
    omega
  · exact ⟨[], by simpa using hl, fun hw hc => h ⟨hw, hc⟩⟩

/-- One turn of the loop takes `min size runMax` units off the front of `[start, start + size)`. -/
theorem toNat_turn {start size m : UInt64} (h : start.toNat + size.toNat < 2 ^ 64) :
    (start + min size m).toNat = start.toNat + min size.toNat m.toNat ∧
      (size - min size m).toNat = size.toNat - min size.toNat m.toNat := by
  have hmin : (min size m).toNat = min size.toNat m.toNat := UInt64.toNat_min _ _
  constructor
  · rw [UInt64.toNat_add, hmin]
    exact Nat.mod_eq_of_lt (by omega)
  · rw [UInt64.toNat_sub_of_le _ _ (by rw [UInt64.le_iff_toNat_le, hmin]; omega), hmin]

/-- **The loop of `space_map_write_seg` keeps a layout**: each turn pads if it must and appends
one entry of `min size runMax` units, which lies inside the map while `[start, start + size)`
does; the induction is on the fuel. -/
theorem writeSegLoop_layout (words : SmWords) :
    ∀ (n : ℕ) (sm : SpaceMap) (start size : UInt64) (its : List SmItem), sm.WellPlaced →
      SmLayout sm its → (start.toNat + size.toNat) * 2 ^ sm.smShift ≤ sm.smSize.toNat →
      ∃ its', SmLayout (writeSegLoop maptype vdevId words n sm start size) (its ++ its')
  | 0, sm, _, _, its, _, hl, _ => ⟨[], by rw [writeSegLoop, List.append_nil]; exact hl⟩
  | n + 1, sm, start, size, its, hg, hl, hfit => by
    rw [writeSegLoop]
    split_ifs with h0
    · exact ⟨[], by rw [List.append_nil]; exact hl⟩
    · obtain ⟨pad, hp, hpb⟩ := hl.padForEntry words
      have hgeo := sm.sameGeometry_padForEntry words
      have hsize : 1 ≤ size.toNat := by
        have : size.toNat ≠ 0 := fun h => h0 (UInt64.toNat_inj.mp (by simpa using h))
        omega
      have hle : start.toNat + size.toNat ≤ (start.toNat + size.toNat) * 2 ^ sm.smShift :=
        Nat.le_mul_of_pos_right _ (Nat.two_pow_pos _)
      have hend := hg.end_lt
      obtain ⟨hstart', hsize'⟩ := @toNat_turn start size words.runMax (by omega)
      have hmax := words.one_le_toNat_runMax
      have hmin : (min size words.runMax).toNat = min size.toNat words.runMax.toNat :=
        UInt64.toNat_min _ _
      have he := hp.appendItem (entryItem_wellKinded maptype vdevId words start _)
        (fun hd => by rw [hgeo.blockWords_eq]; exact hpb (isDouble_entryItem maptype vdevId hd))
        (entryItem_checked maptype vdevId (hgeo.wellPlaced hg) words
          (by rw [hmin]; omega) (by rw [hmin]; omega)
          (by
            rw [hgeo.smShift_eq, hgeo.smSize_eq, hmin]
            exact le_trans (Nat.mul_le_mul_right _ (by omega)) hfit))
      rw [SpaceMap.writeEntry_eq_appendWords]
      have hgeo' := hgeo.trans (SpaceMap.sameGeometry_appendWords
        (entryItem maptype vdevId words start (min size words.runMax)).words _)
      obtain ⟨its', h'⟩ := writeSegLoop_layout words n _ (start + min size words.runMax)
        (size - min size words.runMax) _ (hgeo'.wellPlaced hg) he (by
        rw [hgeo'.smShift_eq, hgeo'.smSize_eq, hstart', hsize',
          show start.toNat + min size.toNat words.runMax.toNat +
            (size.toNat - min size.toNat words.runMax.toNat) = start.toNat + size.toNat by omega]
        exact hfit)
      exact ⟨pad ++ entryItem maptype vdevId words start (min size words.runMax) :: its', by
        simpa only [List.append_assoc, List.singleton_append] using h'⟩

theorem sameGeometry_writeSegLoop (words : SmWords) :
    ∀ (n : ℕ) (sm : SpaceMap) (start size : UInt64),
      sm.SameGeometry (writeSegLoop maptype vdevId words n sm start size)
  | 0, sm, _, _ => SpaceMap.SameGeometry.refl sm
  | n + 1, sm, start, size => by
    rw [writeSegLoop]
    split_ifs
    · exact SpaceMap.SameGeometry.refl sm
    · exact ((sm.sameGeometry_padForEntry words).trans
        (SpaceMap.sameGeometry_writeEntry maptype vdevId _ words _ _)).trans
        (sameGeometry_writeSegLoop words n _ _ _)

end Writers

/-- A segment inside a well-placed map, in units from `sm_start`, ends inside the map. -/
theorem SpaceMap.SegOk.units_le {sm : SpaceMap} (hg : sm.WellPlaced) {rs : UInt64 × UInt64}
    (h : sm.SegOk rs) :
    (((rs.1 - sm.smStart) >>> sm.smShift.toUInt64).toNat +
      ((rs.2 - rs.1) >>> sm.smShift.toUInt64).toNat) * 2 ^ sm.smShift ≤ sm.smSize.toNat := by
  obtain ⟨h1, h2, h3⟩ := h
  have hend : (sm.smStart + sm.smSize).toNat = sm.smStart.toNat + sm.smSize.toNat := by
    rw [UInt64.toNat_add]
    exact Nat.mod_eq_of_lt hg.end_lt
  have h3' := UInt64.le_iff_toNat_le.mp h3
  rw [hend] at h3'
  rw [UInt64.toNat_shiftRight, UInt64.toNat_shiftRight, sm.toNat_smShift_mod,
    Nat.shiftRight_eq_div_pow, Nat.shiftRight_eq_div_pow, UInt64.toNat_sub_of_le _ _ h1,
    UInt64.toNat_sub_of_le _ _ h2]
  have h1' := UInt64.le_iff_toNat_le.mp h1
  have h2' := UInt64.le_iff_toNat_le.mp h2
  calc ((rs.1.toNat - sm.smStart.toNat) / 2 ^ sm.smShift +
        (rs.2.toNat - rs.1.toNat) / 2 ^ sm.smShift) * 2 ^ sm.smShift
      ≤ ((rs.1.toNat - sm.smStart.toNat) + (rs.2.toNat - rs.1.toNat)) / 2 ^ sm.smShift *
          2 ^ sm.smShift := Nat.mul_le_mul_right _ Nat.div_add_div_le_add_div
    _ ≤ (rs.1.toNat - sm.smStart.toNat) + (rs.2.toNat - rs.1.toNat) := Nat.div_mul_le_self _ _
    _ ≤ sm.smSize.toNat := by omega

section Segments

variable (maptype : Maptype) (vdevId : UInt64)

theorem spaceMapWriteSeg_layout {sm : SpaceMap} {its : List SmItem} (hg : sm.WellPlaced)
    (hl : SmLayout sm its) {rs : UInt64 × UInt64} (hs : sm.SegOk rs) (words : SmWords) :
    ∃ its', SmLayout (sm.spaceMapWriteSeg rs.1 rs.2 maptype vdevId words) (its ++ its') :=
  writeSegLoop_layout maptype vdevId words _ sm _ _ its hg hl (hs.units_le hg)

theorem sameGeometry_spaceMapWriteSeg (sm : SpaceMap) (rs : UInt64 × UInt64) (words : SmWords) :
    sm.SameGeometry (sm.spaceMapWriteSeg rs.1 rs.2 maptype vdevId words) :=
  sameGeometry_writeSegLoop maptype vdevId words _ sm _ _

/-- **The segment loop of `space_map_write_impl` keeps a layout**, each segment inside the map
it started from, which every turn leaves in place. -/
theorem writeImplLoop_layout (v2 : Bool) (force : ℕ → Bool) :
    ∀ (i : ℕ) (segs : List (UInt64 × UInt64)) (sm : SpaceMap) (its : List SmItem),
      sm.WellPlaced → SmLayout sm its → (∀ rs ∈ segs, sm.SegOk rs) →
      ∃ its', SmLayout (writeImplLoop maptype vdevId v2 force i segs sm) (its ++ its')
  | _, [], sm, its, _, hl, _ => ⟨[], by rw [writeImplLoop, List.append_nil]; exact hl⟩
  | i, rs :: segs, sm, its, hg, hl, hsegs => by
    rw [writeImplLoop]
    obtain ⟨its₁, h₁⟩ := spaceMapWriteSeg_layout maptype vdevId hg hl
      (hsegs rs List.mem_cons_self) (sm.wordsFor rs vdevId v2 (force i))
    have hgeo := sameGeometry_spaceMapWriteSeg maptype vdevId sm rs (sm.wordsFor rs vdevId v2 (force i))
    obtain ⟨its₂, h₂⟩ := writeImplLoop_layout v2 force (i + 1) segs _ _ (hgeo.wellPlaced hg) h₁
      (fun rs' h => hgeo.segOk (hsegs rs' (List.mem_cons_of_mem _ h)))
    exact ⟨its₁ ++ its₂, by simpa only [List.append_assoc] using h₂⟩

theorem sameGeometry_writeImplLoop (v2 : Bool) (force : ℕ → Bool) :
    ∀ (i : ℕ) (segs : List (UInt64 × UInt64)) (sm : SpaceMap),
      sm.SameGeometry (writeImplLoop maptype vdevId v2 force i segs sm)
  | _, [], sm => SpaceMap.SameGeometry.refl sm
  | i, rs :: segs, sm => by
    rw [writeImplLoop]
    exact (sameGeometry_spaceMapWriteSeg maptype vdevId sm rs _).trans
      (sameGeometry_writeImplLoop v2 force (i + 1) segs _)

/-- The debug word of `space_map_write_intro_debug`, as an item. -/
theorem SmLayout.introDebug {sm : SpaceMap} {its : List SmItem} (hl : SmLayout sm its)
    (syncpass txg : UInt64) :
    SmLayout (sm.spaceMapWriteIntroDebug maptype syncpass txg)
      (its ++ [.debug (smPrefixEncode smDebugPrefix ||| smDebugActionEncode maptype.toUInt64 |||
        smDebugSyncpassEncode syncpass ||| smDebugTxgEncode txg)]) :=
  hl.appendItem (show SmItem.WellKinded (.debug _) from smEntryIsDebug_debugWord _ _ _)
    (by simp [SmItem.isDouble]) (by simp)

/-- **`space_map_write` keeps a layout** of a well-placed map, for segments inside it. -/
theorem spaceMapWrite_layout {sm : SpaceMap} {its : List SmItem} (hg : sm.WellPlaced)
    (hl : SmLayout sm its) {segs : List (UInt64 × UInt64)} (hsegs : ∀ rs ∈ segs, sm.SegOk rs)
    (v2 : Bool) (force : ℕ → Bool) (syncpass txg : UInt64) :
    ∃ its', SmLayout (sm.spaceMapWrite segs maptype vdevId v2 force syncpass txg) (its ++ its') := by
  unfold SpaceMap.spaceMapWrite
  by_cases hs : segs = []
  · rw [if_pos hs]
    exact ⟨[], by rw [List.append_nil]; exact hl⟩
  · rw [if_neg hs]
    -- the layout does not read `smp_alloc`, whichever way it moved
    generalize (if maptype = Maptype.smAlloc then sm.smpAlloc + (segsSpace segs : ℤ)
      else sm.smpAlloc - (segsSpace segs : ℤ)) = alloc
    have hgeo : sm.SameGeometry
        (SpaceMap.spaceMapWriteIntroDebug { sm with smpAlloc := alloc } maptype syncpass txg) :=
      ⟨_, _, _, rfl⟩
    obtain ⟨its', h'⟩ := writeImplLoop_layout maptype vdevId v2 force 0 segs _ _
      (hgeo.wellPlaced hg) ((hl.withAlloc alloc).introDebug maptype syncpass txg)
      (fun rs h => hgeo.segOk (hsegs rs h))
    rw [SpaceMap.spaceMapWriteImpl]
    exact ⟨_, by simpa only [List.append_assoc] using h'⟩

theorem sameGeometry_spaceMapWrite (sm : SpaceMap) (segs : List (UInt64 × UInt64)) (v2 : Bool)
    (force : ℕ → Bool) (syncpass txg : UInt64) :
    sm.SameGeometry (sm.spaceMapWrite segs maptype vdevId v2 force syncpass txg) := by
  unfold SpaceMap.spaceMapWrite
  by_cases hs : segs = []
  · rw [if_pos hs]
    exact SpaceMap.SameGeometry.refl sm
  · rw [if_neg hs]
    exact SpaceMap.SameGeometry.trans ⟨_, _, _, rfl⟩
      (sameGeometry_writeImplLoop maptype vdevId v2 force 0 segs _)

end Segments

/-- **A written map is laid out**: every map that `space_map_write` builds from an empty one is
well placed and laid out as debug words and entries. -/
theorem SmWritten.layout {sm : SpaceMap} (h : SmWritten sm) :
    sm.WellPlaced ∧ ∃ its, SmLayout sm its := by
  induction h with
  | alloc hlen hstart hend => exact ⟨⟨hstart, hend⟩, [], SmLayout.empty hlen⟩
  | write segs maptype vdevId v2 force syncpass txg _ hsegs ih =>
    obtain ⟨hg, its, hl⟩ := ih
    obtain ⟨its', h'⟩ := spaceMapWrite_layout maptype vdevId hg hl hsegs v2 force syncpass txg
    exact ⟨(sameGeometry_spaceMapWrite maptype vdevId _ segs v2 force syncpass txg).wellPlaced hg,
      its ++ its', h'⟩

/-! ## The readers on a written map -/

section Readers

variable {σ : Type} (cb : σ → SpaceMapEntry → σ × Int32)

/-- The callback protocol over `done ++ e :: rest` that fails at `e`. -/
theorem smCallbacks_fail_at {done rest : List SpaceMapEntry} {e : SpaceMapEntry} {a : σ}
    (hdone : (smCallbacks cb a done).2.1 = 0) (he : (cb (smCallbacks cb a done).1 e).2 ≠ 0) :
    smCallbacks cb a (done ++ e :: rest) =
      ((cb (smCallbacks cb a done).1 e).1, (cb (smCallbacks cb a done).1 e).2, done.length) := by
  rw [smCallbacks_append, if_pos hdone, smCallbacks_cons, if_neg he, Nat.zero_add]

/-- The entries after the first `n` from the end. -/
theorem drop_length_sub_of_reverse {E done rest : List SpaceMapEntry} {e : SpaceMapEntry}
    (h : E.reverse = done ++ e :: rest) : E.drop (E.length - done.length) = done.reverse := by
  have hE : E = (rest.reverse ++ [e]) ++ done.reverse := by
    rw [← List.reverse_reverse E, h, List.reverse_append, List.reverse_cons]
  rw [hE]
  exact List.drop_left' (by simp; omega)

/-- **Incremental destroy is iteration reversed.**  A map written by `space_map_write` is
laid out as items whose words are the map's; `space_map_iterate` runs the callback protocol
over their entries, and `space_map_incremental_destroy` over the same entries from the last.
With a callback that always returns 0 the destroy empties the map and takes the `SM_ALLOC` runs
less the `SM_FREE` runs off `smp_alloc`; with one that returns 0 on the entries `done` from the
end and fails on the next one `e`, it returns that failure and leaves the words through `e`,
with exactly the entries of `done` taken off `smp_alloc`. -/
theorem spaceMapIncrementalDestroy_reverse {sm : SpaceMap} (hw : SmWritten sm) :
    ∃ its : List SmItem, its.flatMap SmItem.words = sm.readWords 0 (sm.smpLength / 8) ∧
      (∀ it ∈ its, it.WellKinded) ∧
      ∀ {σ : Type} (cb : σ → SpaceMapEntry → σ × Int32) (a : σ),
        sm.spaceMapIterate sm.smpLength cb a =
            some ((smCallbacks cb a (sm.entries its)).1, (smCallbacks cb a (sm.entries its)).2.1) ∧
          ((∀ b e, (cb b e).2 = 0) →
            sm.spaceMapIncrementalDestroy cb a =
              some ((smCallbacks cb a (sm.entries its).reverse).1, 0,
                { sm with smpLength := 0, smpAlloc := sm.smpAlloc - smAllocDelta (sm.entries its) })) ∧
          ∀ (done rest : List SpaceMapEntry) (e : SpaceMapEntry),
            (sm.entries its).reverse = done ++ e :: rest →
            (smCallbacks cb a done).2.1 = 0 → (cb (smCallbacks cb a done).1 e).2 ≠ 0 →
            sm.spaceMapIncrementalDestroy cb a =
              some ((cb (smCallbacks cb a done).1 e).1, (cb (smCallbacks cb a done).1 e).2,
                { sm with
                  smpLength := 8 * wordsThrough its ((sm.entries its).length - done.length)
                  smpAlloc := sm.smpAlloc - smAllocDelta done }) := by
  obtain ⟨_, its, hl⟩ := hw.layout
  refine ⟨its, hl.words.symm, hl.kinded, fun cb a =>
    ⟨SpaceMap.spaceMapIterate_layout sm cb hl a, fun hok => ?_, fun done rest e hsplit hdone he => ?_⟩⟩
  · -- every call returns 0: all entries are finished
    rw [spaceMapIncrementalDestroy_layout cb hl a, smCallbacks_of_ok cb hok a,
      List.length_reverse, Nat.sub_self, wordsThrough_zero, Nat.mul_zero, List.drop_zero]
  · -- the call on `e` fails: `done` is finished
    rw [spaceMapIncrementalDestroy_layout cb hl a, hsplit, smCallbacks_fail_at cb hdone he]
    dsimp only
    rw [drop_length_sub_of_reverse hsplit, smAllocDelta_reverse]

/-- An empty map of 1 MiB from 0 in units of 512 bytes and blocks of 4096 bytes, written once
with two segments, the second in two-word entries. -/
def smWrittenExample : SpaceMap :=
  SpaceMap.spaceMapWrite
    { smStart := 0, smSize := 1048576, smShift := 9, smBlksz := 4096, smObject := fun _ => 0,
      smpLength := 0, smpAlloc := 0, shift_lt := by norm_num, blksz_dvd := by norm_num,
      two_words_le := by norm_num }
    [(0, 4096), (65536, 66048)] Maptype.smAlloc smNoVdevid true (fun i => i == 1) 1 1

theorem spaceMapIncrementalDestroy_reverse_written :
    SmWritten smWrittenExample ∧
    ∃ its : List SmItem, its.flatMap SmItem.words =
        smWrittenExample.readWords 0 (smWrittenExample.smpLength / 8) ∧
      (∀ it ∈ its, it.WellKinded) ∧
      ∀ {σ : Type} (cb : σ → SpaceMapEntry → σ × Int32) (a : σ),
        smWrittenExample.spaceMapIterate smWrittenExample.smpLength cb a =
            some ((smCallbacks cb a (smWrittenExample.entries its)).1,
              (smCallbacks cb a (smWrittenExample.entries its)).2.1) ∧
          ((∀ b e, (cb b e).2 = 0) →
            smWrittenExample.spaceMapIncrementalDestroy cb a =
              some ((smCallbacks cb a (smWrittenExample.entries its).reverse).1, 0,
                { smWrittenExample with
                  smpLength := 0
                  smpAlloc := smWrittenExample.smpAlloc -
                    smAllocDelta (smWrittenExample.entries its) })) ∧
          ∀ (done rest : List SpaceMapEntry) (e : SpaceMapEntry),
            (smWrittenExample.entries its).reverse = done ++ e :: rest →
            (smCallbacks cb a done).2.1 = 0 → (cb (smCallbacks cb a done).1 e).2 ≠ 0 →
            smWrittenExample.spaceMapIncrementalDestroy cb a =
              some ((cb (smCallbacks cb a done).1 e).1, (cb (smCallbacks cb a done).1 e).2,
                { smWrittenExample with
                  smpLength := 8 * wordsThrough its
                    ((smWrittenExample.entries its).length - done.length)
                  smpAlloc := smWrittenExample.smpAlloc - smAllocDelta done }) :=
  have hw : SmWritten smWrittenExample :=
    .write _ _ _ _ _ _ _ (.alloc rfl (by decide) (by decide))
      (by simp [SpaceMap.SegOk, UInt64.le_iff_toNat_le])
  ⟨hw, spaceMapIncrementalDestroy_reverse hw⟩

end Readers

end Zfs
