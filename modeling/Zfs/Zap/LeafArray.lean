import Mathlib.Data.Nat.Bitwise
import Mathlib.Data.UInt
import Mathlib.Tactic.Ring

/-!
# Zap/LeafArray — the arrays of a ZAP leaf

A name or a value in a fat ZAP leaf is an array of integers of 1, 2, 4 or 8 bytes, kept on a
chain of chunks of `ZAP_LEAF_ARRAY_BYTES` (21) bytes each.  `zap_leaf_array_create` writes the
integers big-endian, byte after byte, across as many chunks as they need; an integer may straddle
two chunks.  `zap_leaf_array_read` rebuilds them into a buffer of integers of the caller's size,
with a fast path for one `uint64_t` and one for byte arrays, and `zap_leaf_array_match` compares
a stored name with a key chunk by chunk.

The generic loop of `zap_leaf_array_read` shifts each byte into `value` and stores `value` at
the end of every integer without clearing it, so the low `buf_int_len` bytes it stores are the
last `buf_int_len` bytes read.  When the caller's integers are as wide as the stored ones these
are the integer; when they are wider, every integer after the first carries bytes of the ones
before it.

* `zapLeafArrayCreate_spec` — the integers are stored big-endian across exactly
  `ZAP_LEAF_ARRAY_NCHUNKS(n * s)` chunks;
* `zapLeafArrayReadLoop_spec` — what the generic loop stores (`readStored`): the low bytes of all
  the bytes read so far, at the end of each integer;
* `zapLeafArrayRead_fast_paths` — both fast paths store what the loop stores, and
  `zapLeafArrayRead_bytes_fit` — the whole chunks the byte-array path copies fit the buffer;
* `zapLeafArrayRead_create_stored` — an array read back at any width, and
  `zapLeafArrayRead_create` — read back at its own width, the integers are the ones stored;
* `zapLeafArrayMatchExact_eq_read` — the exact-match walk agrees with reading the name and
  comparing;
* **`zapLeafArray_round_trip`** — an array written into enough free chunks takes exactly its
  chunks and reads back at its own width, and the byte-array path fits its buffer;
* **`zapLeafArrayMatch_create_name`** — a name written so is matched by itself and by no other key;
* `zapLeafArrayRead_widen_mixes` — two bytes `1, 2` read back as `uint64_t`s are `1, 0x102`.
-/

namespace Zfs

/-! ## Layout (`sys/zap_leaf.h`, `sys/fs/zfs.h`) -/

/-- `ZAP_LEAF_CHUNKSIZE`. -/
def zapLeafChunksize : ℕ := 24

/-- `ZAP_LEAF_ARRAY_BYTES`: a chunk less its type and its `la_next`. -/
def zapLeafArrayBytes : ℕ := zapLeafChunksize - 3

/-- `ZAP_LEAF_ARRAY_NCHUNKS(bytes)`. -/
def zapLeafArrayNchunks (bytes : ℕ) : ℕ := (bytes + zapLeafArrayBytes - 1) / zapLeafArrayBytes

/-- `ZAP_MAXVALUELEN`. -/
def zapMaxvaluelen : ℕ := 1024 * 8

/-- `ldv(len, addr)`: the `len`-byte integer at `addr`, of which the caller's array holds the
value; `len` other than 1, 2, 4, 8 panics. -/
def ldv (len : ℕ) (x : UInt64) : UInt64 :=
  match len with
  | 1 => x.toUInt8.toUInt64
  | 2 => x.toUInt16.toUInt64
  | 4 => x.toUInt32.toUInt64
  | 8 => x
  | _ => 0xFEEDFACEDEADBEEF

/-- `stv(len, addr, value)`: the integer a buffer of `len`-byte integers holds after the store,
the low `len` bytes of `value`, as `ldv` reads them back. -/
def stv (len : ℕ) (value : UInt64) : UInt64 := ldv len value

/-! ## `zap_leaf_array_create` -/

/-- The state of the loops of `zap_leaf_array_create`: `byten`, `value`, the integers from the
current one on (`buf`), and `len`. -/
structure ZapArrayCreateSt where
  byten : ℕ
  value : UInt64
  buf : List UInt64
  len : ℕ

/-- The inner loop of `zap_leaf_array_create` over the `k` bytes of a chunk left: the bytes it
writes, and the state after it.  It breaks out when the last integer is done. -/
def zapLeafArrayCreateChunk (integerSize : ℕ) : ℕ → ZapArrayCreateSt → List UInt8 × ZapArrayCreateSt
  | 0, st => ([], st)
  | k + 1, st =>
    let value := if st.byten = 0 then ldv integerSize (st.buf.headD 0) else st.value
    let b := (value >>> ((integerSize - 1) * 8).toUInt64).toUInt8
    let value := value <<< 8
    if st.byten + 1 = integerSize then
      let st : ZapArrayCreateSt := ⟨0, value, st.buf.tail, st.len - 1⟩
      if st.len = 0 then ([b], st)
      else
        let r := zapLeafArrayCreateChunk integerSize k st
        (b :: r.1, r.2)
    else
      let r := zapLeafArrayCreateChunk integerSize k ⟨st.byten + 1, value, st.buf, st.len⟩
      (b :: r.1, r.2)

/-- The outer loop of `zap_leaf_array_create`: while integers are left, take the next chunk
`zap_leaf_chunk_alloc` hands out (given with the bytes it held) and fill it; the bytes of the
last chunk past the array keep what they held.  `none` where no free chunk is left. -/
def zapLeafArrayCreateLoop (integerSize : ℕ) :
    List (List UInt8) → ZapArrayCreateSt → Option (List (List UInt8))
  | free, st =>
    if st.len = 0 then some []
    else
      match free with
      | [] => none
      | old :: free =>
        let r := zapLeafArrayCreateChunk integerSize zapLeafArrayBytes st
        (zapLeafArrayCreateLoop integerSize free r.2).map ((r.1 ++ old.drop r.1.length) :: ·)

/-- `zap_leaf_array_create(l, buf, integer_size, num_integers)`: the `la_array` of each chunk of
the new chain, in chain order, from the leaf's free chunks in the order they are allocated. -/
def zapLeafArrayCreate (free : List (List UInt8)) (buf : List UInt64) (integerSize numIntegers : ℕ) :
    Option (List (List UInt8)) :=
  zapLeafArrayCreateLoop integerSize free ⟨0, 0, buf, numIntegers⟩

/-! ## `zap_leaf_array_read` -/

/-- The state of the generic loop of `zap_leaf_array_read`: `byten`, `value`, `len`, and the
integers stored into the buffer so far. -/
structure ZapArrayReadSt where
  byten : ℕ
  value : UInt64
  len : ℕ
  out : List UInt64

/-- The inner loop of `zap_leaf_array_read` over the bytes of a chunk, while integers are left:
every byte is shifted into `value`, and at the end of each integer `value` is stored. -/
def zapLeafArrayReadChunk (arrayIntLen bufIntLen : ℕ) : List UInt8 → ZapArrayReadSt → ZapArrayReadSt
  | [], st => st
  | b :: bs, st =>
    if st.len = 0 then st
    else
      let value := (st.value <<< 8) ||| b.toUInt64
      if st.byten + 1 = arrayIntLen then
        zapLeafArrayReadChunk arrayIntLen bufIntLen bs
          ⟨0, value, st.len - 1, st.out ++ [stv bufIntLen value]⟩
      else zapLeafArrayReadChunk arrayIntLen bufIntLen bs ⟨st.byten + 1, value, st.len, st.out⟩

/-- The outer loop of `zap_leaf_array_read`, along the chain while integers are left; `none`
where it would follow `CHAIN_END`. -/
def zapLeafArrayReadLoop (arrayIntLen bufIntLen : ℕ) :
    List (List UInt8) → ZapArrayReadSt → Option (List UInt64)
  | chain, st =>
    if st.len = 0 then some st.out
    else
      match chain with
      | [] => none
      | la :: chain =>
        zapLeafArrayReadLoop arrayIntLen bufIntLen chain (zapLeafArrayReadChunk arrayIntLen bufIntLen la st)

/-- The value of the first eight bytes of a chunk, most significant first: the fast path for one
`uint64_t`. -/
def zapLeafArrayReadU64 (ip : List UInt8) : UInt64 :=
  (ip.getD 0 0).toUInt64 <<< 56 ||| (ip.getD 1 0).toUInt64 <<< 48 |||
    (ip.getD 2 0).toUInt64 <<< 40 ||| (ip.getD 3 0).toUInt64 <<< 32 |||
    (ip.getD 4 0).toUInt64 <<< 24 ||| (ip.getD 5 0).toUInt64 <<< 16 |||
    (ip.getD 6 0).toUInt64 <<< 8 ||| (ip.getD 7 0).toUInt64

/-- `zap_leaf_array_read(l, chunk, array_int_len, array_len, buf_int_len, buf_len, buf)` on the
chain from `chunk`: the integers stored into `buf`, from its start.  The byte-array fast path
copies every chunk whole. -/
def zapLeafArrayRead (chain : List (List UInt8)) (arrayIntLen arrayLen bufIntLen bufLen : ℕ) :
    Option (List UInt64) :=
  let len := min arrayLen bufLen
  if arrayIntLen = 8 ∧ bufIntLen = 8 ∧ len = 1 then
    chain.head?.map fun la => [zapLeafArrayReadU64 la]
  else if arrayIntLen = 1 ∧ bufIntLen = 1 ∧ bufLen > arrayLen + zapLeafArrayBytes then
    some ((chain.map fun la => la.take zapLeafArrayBytes).flatten.map UInt8.toUInt64)
  else zapLeafArrayReadLoop arrayIntLen bufIntLen chain ⟨0, 0, len, []⟩

/-! ## `zap_leaf_array_match` -/

/-- The exact-match walk of `zap_leaf_array_match`: compare each chunk with the next bytes of the
key, `bseen` counting the bytes that agreed; `none` where it would follow `CHAIN_END`. -/
def zapLeafArrayMatchLoop (arrayNumints : ℕ) (key : List UInt8) :
    List (List UInt8) → ℕ → Option Bool
  | chain, bseen =>
    if bseen < arrayNumints then
      match chain with
      | [] => none
      | la :: chain =>
        let toread := min (arrayNumints - bseen) zapLeafArrayBytes
        if la.take toread ≠ (key.drop bseen).take toread then some (bseen == arrayNumints)
        else zapLeafArrayMatchLoop arrayNumints key chain (bseen + toread)
    else some (bseen == arrayNumints)

/-- `zap_leaf_array_match(l, zn, chunk, array_numints)` for a string key matched exactly: the
lengths first, so that the key is not read past its end, then the walk. -/
def zapLeafArrayMatchExact (chain : List (List UInt8)) (arrayNumints : ℕ) (key : List UInt8) :
    Option Bool :=
  if arrayNumints ≠ key.length then some false
  else zapLeafArrayMatchLoop arrayNumints key chain 0

/-! ## Big-endian bytes -/

/-- The number a list of bytes denotes, most significant first. -/
def beValue (bs : List UInt8) : ℕ := bs.foldl (fun v b => v * 256 + b.toNat) 0

/-- The `s` low bytes of `x`, most significant first. -/
def beDigits (s x : ℕ) : List UInt8 :=
  (List.range s).map fun j => UInt8.ofNat (x / 2 ^ (8 * (s - 1 - j)))

/-- The bytes of an array of `s`-byte integers, each big-endian. -/
def zapArrayBytes (s : ℕ) (ints : List UInt64) : List UInt8 :=
  ints.flatMap fun v => beDigits s v.toNat

theorem foldl_beValue (a : ℕ) (bs : List UInt8) :
    bs.foldl (fun v b => v * 256 + b.toNat) a = a * 256 ^ bs.length + beValue bs := by
  induction bs generalizing a with
  | nil => simp [beValue]
  | cons b bs ih =>
    have hb : beValue (b :: bs) = b.toNat * 256 ^ bs.length + beValue bs := by
      rw [beValue, List.foldl_cons, ih]
      simp
    rw [List.foldl_cons, ih, hb, List.length_cons, pow_succ]
    ring

@[simp] theorem beValue_nil : beValue [] = 0 := rfl

theorem beValue_append (xs ys : List UInt8) :
    beValue (xs ++ ys) = beValue xs * 256 ^ ys.length + beValue ys := by
  rw [beValue, List.foldl_append, ← beValue, foldl_beValue]

theorem beValue_concat (xs : List UInt8) (b : UInt8) :
    beValue (xs ++ [b]) = beValue xs * 256 + b.toNat := by
  simp [beValue]

@[simp] theorem length_beDigits (s x : ℕ) : (beDigits s x).length = s := by
  simp [beDigits]

theorem beDigits_succ (s x : ℕ) : beDigits (s + 1) x = beDigits s (x / 256) ++ [UInt8.ofNat x] := by
  unfold beDigits
  rw [List.range_succ, List.map_append, List.map_singleton, Nat.add_sub_cancel, Nat.sub_self,
    Nat.mul_zero, pow_zero, Nat.div_one]
  congr 1
  refine List.map_congr_left fun j hj => ?_
  have hj := List.mem_range.mp hj
  -- one byte more to the right is one division by 256 more
  rw [Nat.div_div_eq_div_mul, show 8 * (s - j) = 8 + 8 * (s - 1 - j) by omega, pow_add]
  rfl

/-- **The digits denote the low bytes of the number.** -/
theorem beValue_beDigits (s x : ℕ) : beValue (beDigits s x) = x % 2 ^ (8 * s) := by
  induction s generalizing x with
  | zero => simp [beDigits, Nat.mod_one]
  | succ s ih =>
    rw [beDigits_succ, beValue_concat, ih, UInt8.toNat_ofNat',
      show 8 * (s + 1) = 8 + 8 * s by ring, pow_add, Nat.mod_mul]
    norm_num
    ring

theorem length_zapArrayBytes (s : ℕ) (ints : List UInt64) :
    (zapArrayBytes s ints).length = ints.length * s := by
  induction ints with
  | nil => simp [zapArrayBytes]
  | cons v ints ih =>
    simp only [zapArrayBytes, List.flatMap_cons, List.length_append, length_beDigits] at ih ⊢
    rw [ih, List.length_cons]
    ring

/-! ## Writing an array -/

/-- The integer sizes a ZAP array may have. -/
def ZapIntLen (s : ℕ) : Prop := s = 1 ∨ s = 2 ∨ s = 4 ∨ s = 8

theorem ZapIntLen.pos {s : ℕ} (hs : ZapIntLen s) : 0 < s := by
  rcases hs with rfl | rfl | rfl | rfl <;> decide

theorem ZapIntLen.le_eight {s : ℕ} (hs : ZapIntLen s) : s ≤ 8 := by
  rcases hs with rfl | rfl | rfl | rfl <;> decide

theorem toNat_ldv {s : ℕ} (hs : ZapIntLen s) (x : UInt64) :
    (ldv s x).toNat = x.toNat % 2 ^ (8 * s) := by
  rcases hs with rfl | rfl | rfl | rfl
  · simp [ldv]
  · simp [ldv]
  · simp [ldv]
  · simp [ldv, Nat.mod_eq_of_lt x.toNat_lt]

theorem toNat_shiftLeft_eight (v : UInt64) : (v <<< 8).toNat = v.toNat * 2 ^ 8 % 2 ^ 64 := by
  rw [UInt64.toNat_shiftLeft, Nat.shiftLeft_eq]
  rfl

/-- Byte `r` of an `s`-byte integer is the top byte once it has been shifted left `r` bytes. -/
theorem shift_byte {x r s : ℕ} (hr : r < s) (hs : s ≤ 8) :
    x % 2 ^ (8 * s) * 2 ^ (8 * r) % 2 ^ 64 / 2 ^ (8 * (s - 1)) % 2 ^ 8 =
      x / 2 ^ (8 * (s - 1 - r)) % 2 ^ 8 := by
  apply Nat.eq_of_testBit_eq
  intro i
  simp only [Nat.testBit_mod_two_pow, Nat.testBit_div_two_pow, Nat.testBit_mul_two_pow]
  by_cases hi : i < 8
  · have h1 : i + 8 * (s - 1) < 64 := by omega
    have h2 : 8 * r ≤ i + 8 * (s - 1) := by omega
    have h3 : i + 8 * (s - 1 - r) < 8 * s := by omega
    simp [hi, h1, h2, h3, show i + 8 * (s - 1) - 8 * r = i + 8 * (s - 1 - r) by omega]
  · simp [hi]

/-- `zap_leaf_array_create` at byte `byten` of the integer `cur`, with `rest` after it: `value`
holds `cur` shifted left by the bytes already written, once one has been. -/
structure CreateAt (s : ℕ) (st : ZapArrayCreateSt) (cur : UInt64) (rest : List UInt64) : Prop where
  buf : st.buf = cur :: rest
  len : st.len = rest.length + 1
  byten : st.byten < s
  value : st.byten ≠ 0 → st.value.toNat = (ldv s cur).toNat * 2 ^ (8 * st.byten) % 2 ^ 64

/-- The bytes `zap_leaf_array_create` has left to write at byte `byten` of `cur`. -/
def createLeft (s byten : ℕ) (cur : UInt64) (rest : List UInt64) : List UInt8 :=
  (beDigits s cur.toNat).drop byten ++ zapArrayBytes s rest

theorem drop_beDigits {s r : ℕ} (hr : r < s) (x : ℕ) :
    (beDigits s x).drop r = UInt8.ofNat (x / 2 ^ (8 * (s - 1 - r))) :: (beDigits s x).drop (r + 1) := by
  rw [List.drop_eq_getElem_cons (by simpa using hr)]
  simp [beDigits]

/-- One byte of `zap_leaf_array_create`: it is the next byte of `cur`, and `value` moves on. -/
theorem create_byte {s : ℕ} (hs : ZapIntLen s) {st : ZapArrayCreateSt} {cur : UInt64}
    {rest : List UInt64} (h : CreateAt s st cur rest) :
    createLeft s st.byten cur rest =
        ((if st.byten = 0 then ldv s (st.buf.headD 0) else st.value) >>>
          ((s - 1) * 8).toUInt64).toUInt8 :: createLeft s (st.byten + 1) cur rest ∧
      ((if st.byten = 0 then ldv s (st.buf.headD 0) else st.value) <<< 8).toNat =
        (ldv s cur).toNat * 2 ^ (8 * (st.byten + 1)) % 2 ^ 64 := by
  have hs8 := hs.le_eight
  -- `value` before the byte: `cur` shifted left by the bytes already written
  have hv : (if st.byten = 0 then ldv s (st.buf.headD 0) else st.value).toNat =
      (ldv s cur).toNat * 2 ^ (8 * st.byten) % 2 ^ 64 := by
    split_ifs with h0
    · rw [h.buf, h0, List.headD_cons, Nat.mul_zero, pow_zero, Nat.mul_one,
        Nat.mod_eq_of_lt (UInt64.toNat_lt _)]
    · exact h.value h0
  refine ⟨?_, ?_⟩
  · rw [createLeft, drop_beDigits h.byten, List.cons_append, createLeft]
    congr 1
    apply UInt8.toNat_inj.mp
    have hshift : ((s - 1) * 8).toUInt64.toNat % 64 = 8 * (s - 1) := by
      simp only [Nat.toUInt64_eq, UInt64.toNat_ofNat', Nat.reducePow]
      omega
    rw [UInt64.toNat_toUInt8, UInt64.toNat_shiftRight, hshift, Nat.shiftRight_eq_div_pow, hv,
      toNat_ldv hs, shift_byte h.byten hs8, UInt8.toNat_ofNat']
  · rw [toNat_shiftLeft_eight, hv, Nat.mod_mul_mod, Nat.mul_add, pow_add, ← Nat.mul_assoc]

/-- What the inner loop of `zap_leaf_array_create` does with `k` bytes of room and the bytes `L`
still to write: it writes the first `k`, and stops with no integer left or in the middle of one
with the rest of `L` left. -/
def ChunkOk (s k : ℕ) (L : List UInt8) (r : List UInt8 × ZapArrayCreateSt) : Prop :=
  r.1 = L.take k ∧ (L.length ≤ k → r.2.len = 0) ∧
    (k < L.length → ∃ cur rest, CreateAt s r.2 cur rest ∧ createLeft s r.2.byten cur rest = L.drop k)

theorem ChunkOk.cons {s k : ℕ} {L : List UInt8} {r : List UInt8 × ZapArrayCreateSt}
    (h : ChunkOk s k L r) (b : UInt8) : ChunkOk s (k + 1) (b :: L) (b :: r.1, r.2) :=
  ⟨by rw [h.1, List.take_succ_cons], fun hle => h.2.1 (by simpa using hle),
    fun hlt => h.2.2 (by simpa using hlt)⟩

theorem length_createLeft {s byten : ℕ} (cur : UInt64) (rest : List UInt64) :
    (createLeft s byten cur rest).length = s - byten + rest.length * s := by
  simp [createLeft, length_zapArrayBytes]

/-- **The inner loop of `zap_leaf_array_create` writes the next bytes of the array.** -/
theorem zapLeafArrayCreateChunk_spec {s : ℕ} (hs : ZapIntLen s) :
    ∀ (k : ℕ) (st : ZapArrayCreateSt) (cur : UInt64) (rest : List UInt64), CreateAt s st cur rest →
      ChunkOk s k (createLeft s st.byten cur rest) (zapLeafArrayCreateChunk s k st)
  | 0, st, cur, rest, h => by
    refine ⟨rfl, fun hle => absurd hle ?_, fun _ => ⟨cur, rest, h, rfl⟩⟩
    rw [length_createLeft]
    have := h.byten
    omega
  | k + 1, st, cur, rest, h => by
    obtain ⟨hleft, hval⟩ := create_byte hs h
    rw [zapLeafArrayCreateChunk, hleft]
    dsimp only
    by_cases hend : st.byten + 1 = s
    · -- the last byte of an integer: the next one starts at its first byte
      have hnext : createLeft s (st.byten + 1) cur rest = zapArrayBytes s rest := by
        rw [createLeft, hend, List.drop_eq_nil_of_le (by simp), List.nil_append]
      rw [if_pos hend, hnext]
      cases rest with
      | nil =>
        have hlast : st.len - 1 = 0 := by
          have := h.len
          simp at this
          omega
        rw [if_pos hlast]
        exact ⟨by simp [zapArrayBytes], fun _ => hlast, fun hlt => absurd hlt (by simp [zapArrayBytes])⟩
      | cons cur' rest' =>
        have hlast : ¬st.len - 1 = 0 := by
          have := h.len
          simp at this
          omega
        rw [if_neg hlast]
        refine (zapLeafArrayCreateChunk_spec hs k _ cur' rest'
          ⟨by simp [h.buf], by simp [h.len], hs.pos, fun h0 => absurd rfl h0⟩).cons _
    · -- a byte inside an integer
      rw [if_neg hend]
      exact (zapLeafArrayCreateChunk_spec hs k ⟨st.byten + 1, _, st.buf, st.len⟩ cur rest
        ⟨h.buf, h.len, show st.byten + 1 < s by have := h.byten; omega, fun _ => hval⟩).cons _

/-- Where the outer loop of `zap_leaf_array_create` stands with the bytes `L` left to write:
done, or at byte `byten` of `cur`. -/
def CreateLoopAt (s : ℕ) (st : ZapArrayCreateSt) (L : List UInt8) : Prop :=
  st.len = 0 ∧ L = [] ∨ ∃ cur rest, CreateAt s st cur rest ∧ createLeft s st.byten cur rest = L

theorem ChunkOk.loopAt {s k : ℕ} {L : List UInt8} {r : List UInt8 × ZapArrayCreateSt}
    (h : ChunkOk s k L r) : CreateLoopAt s r.2 (L.drop k) := by
  by_cases hk : k < L.length
  · exact Or.inr (h.2.2 hk)
  · exact Or.inl ⟨h.2.1 (by omega), List.drop_eq_nil_of_le (by omega)⟩

theorem zapLeafArrayNchunks_sub {n : ℕ} (hn : 0 < n) :
    zapLeafArrayNchunks n = zapLeafArrayNchunks (n - zapLeafArrayBytes) + 1 := by
  simp only [zapLeafArrayNchunks, zapLeafArrayBytes, zapLeafChunksize]
  omega

/-- The bytes one chunk of the chain holds once filled: the next `ZAP_LEAF_ARRAY_BYTES` bytes of
`L`, and past the end of `L` what the chunk held before. -/
theorem take_flatten_fill {L old : List UInt8} {chunks : List (List UInt8)}
    (hold : old.length = zapLeafArrayBytes)
    (hrest : chunks.flatten.take (L.drop zapLeafArrayBytes).length = L.drop zapLeafArrayBytes) :
    ((L.take zapLeafArrayBytes ++ old.drop (L.take zapLeafArrayBytes).length) :: chunks).flatten.take
        L.length = L := by
  rw [List.flatten_cons]
  by_cases hL : L.length ≤ zapLeafArrayBytes
  · rw [List.take_of_length_le hL, List.append_assoc, List.take_left]
  · have htake : (L.take zapLeafArrayBytes).length = zapLeafArrayBytes := by simp; omega
    rw [htake, List.drop_eq_nil_of_le hold.le, List.append_nil]
    have hsplit : L.length = (L.take zapLeafArrayBytes).length + (L.drop zapLeafArrayBytes).length := by
      simp; omega
    rw [hsplit, List.take_length_add_append, hrest, List.take_append_drop]

/-- **The outer loop of `zap_leaf_array_create` spreads the bytes left over the free chunks**:
`ZAP_LEAF_ARRAY_NCHUNKS` of them, each filled from its start. -/
theorem zapLeafArrayCreateLoop_spec {s : ℕ} (hs : ZapIntLen s) (free : List (List UInt8)) :
    ∀ (st : ZapArrayCreateSt) (L : List UInt8), CreateLoopAt s st L →
      (∀ c ∈ free, c.length = zapLeafArrayBytes) → zapLeafArrayNchunks L.length ≤ free.length →
      ∃ chunks, zapLeafArrayCreateLoop s free st = some chunks ∧
        chunks.length = zapLeafArrayNchunks L.length ∧
          (∀ c ∈ chunks, c.length = zapLeafArrayBytes) ∧ chunks.flatten.take L.length = L := by
  -- induction on the free chunks, with the bytes left to write as the invariant
  induction free with
  | nil =>
    rintro st L (⟨h0, rfl⟩ | ⟨cur, rest, h, rfl⟩) - hn
    · exact ⟨[], by rw [zapLeafArrayCreateLoop, if_pos h0], rfl, by simp, rfl⟩
    · have hpos : 0 < (createLeft s st.byten cur rest).length := by
        rw [length_createLeft]
        have := h.byten
        omega
      rw [zapLeafArrayNchunks_sub hpos] at hn
      simp at hn
  | cons old free ih =>
    rintro st L (⟨h0, rfl⟩ | ⟨cur, rest, h, rfl⟩) hfree hn
    · exact ⟨[], by rw [zapLeafArrayCreateLoop, if_pos h0], rfl, by simp, rfl⟩
    · have hpos : 0 < (createLeft s st.byten cur rest).length := by
        rw [length_createLeft]
        have := h.byten
        omega
      have hc := zapLeafArrayCreateChunk_spec hs zapLeafArrayBytes st cur rest h
      rw [zapLeafArrayNchunks_sub hpos] at hn
      obtain ⟨chunks, hrun, hcount, hsize, hbytes⟩ := ih _ _ hc.loopAt
        (fun c hmem => hfree c (List.mem_cons_of_mem _ hmem)) (by simp at hn ⊢; omega)
      have hold := hfree old List.mem_cons_self
      refine ⟨_, ?_, ?_, ?_, take_flatten_fill hold hbytes⟩
      · rw [zapLeafArrayCreateLoop, if_neg (by rw [h.len]; omega)]
        simp only [hrun, Option.map_some, hc.1]
      · rw [List.length_cons, hcount, zapLeafArrayNchunks_sub hpos, List.length_drop]
      · simp only [List.mem_cons, forall_eq_or_imp, List.length_append, List.length_take,
          List.length_drop, hold]
        exact ⟨by omega, hsize⟩

/-- **`zap_leaf_array_create` stores the integers big-endian across `ZAP_LEAF_ARRAY_NCHUNKS`
chunks**, where the leaf has that many free chunks. -/
theorem zapLeafArrayCreate_spec {s n : ℕ} (hs : ZapIntLen s) {buf : List UInt64}
    (hbuf : buf.length = n) {free : List (List UInt8)}
    (hfree : ∀ c ∈ free, c.length = zapLeafArrayBytes) (hn : zapLeafArrayNchunks (n * s) ≤ free.length) :
    ∃ chunks, zapLeafArrayCreate free buf s n = some chunks ∧
      chunks.length = zapLeafArrayNchunks (n * s) ∧ (∀ c ∈ chunks, c.length = zapLeafArrayBytes) ∧
        chunks.flatten.take (n * s) = zapArrayBytes s buf := by
  have hat : CreateLoopAt s ⟨0, 0, buf, n⟩ (zapArrayBytes s buf) := by
    cases buf with
    | nil => exact Or.inl ⟨hbuf.symm, rfl⟩
    | cons cur rest =>
      refine Or.inr ⟨cur, rest, ⟨rfl, hbuf.symm, hs.pos, fun h0 => absurd rfl h0⟩, ?_⟩
      simp [createLeft, zapArrayBytes]
  have hlen : (zapArrayBytes s buf).length = n * s := by rw [length_zapArrayBytes, hbuf]
  rw [← hlen] at hn ⊢
  exact zapLeafArrayCreateLoop_spec hs free _ _ hat hfree hn

/-! ## Reading an array -/

theorem or_eq_add_of_dvd {a b m : ℕ} (ha : 2 ^ m ∣ a) (hb : b < 2 ^ m) : a ||| b = a + b := by
  obtain ⟨c, rfl⟩ := ha
  rw [Nat.mul_comm, ← Nat.shiftLeft_eq]
  exact (Nat.shiftLeft_add_eq_or_of_lt hb c).symm

/-- One byte shifted into `value`. -/
theorem toNat_shiftLeft_or (v : UInt64) (b : UInt8) :
    ((v <<< 8) ||| b.toUInt64).toNat = (v.toNat * 256 + b.toNat) % 2 ^ 64 := by
  have hb : b.toNat < 2 ^ 8 := b.toNat_lt
  rw [UInt64.toNat_or, toNat_shiftLeft_eight, UInt8.toNat_toUInt64,
    or_eq_add_of_dvd (by omega) hb]
  omega

/-- What the generic loop of `zap_leaf_array_read` stores for integer `k` of the array `B`: all
the bytes read so far as one number, cut to `buf_int_len` bytes by `stv`. -/
def readStored (s t : ℕ) (B : List UInt8) (k : ℕ) : UInt64 :=
  stv t (UInt64.ofNat (beValue (B.take ((k + 1) * s))))

/-- The state of the generic loop of `zap_leaf_array_read`, started with `len` integers to read,
once it has read the first `p` bytes of the array `B`. -/
def readAt (s t len : ℕ) (B : List UInt8) (p : ℕ) : ZapArrayReadSt :=
  ⟨p % s, UInt64.ofNat (beValue (B.take p)), len - p / s, (List.range (p / s)).map (readStored s t B)⟩

theorem succ_div_mod_of_eq {p s : ℕ} (h : p % s + 1 = s) :
    (p + 1) % s = 0 ∧ (p + 1) / s = p / s + 1 := by
  have hd := Nat.mod_add_div p s
  have hk : 0 + s * (p / s + 1) = p + 1 := by
    rw [Nat.mul_succ]
    omega
  exact ((Nat.div_mod_unique (by omega)).mpr ⟨hk, by omega⟩).symm

theorem succ_div_mod_of_ne {p s : ℕ} (hs : 0 < s) (h : p % s + 1 ≠ s) :
    (p + 1) % s = p % s + 1 ∧ (p + 1) / s = p / s := by
  have hd := Nat.mod_add_div p s
  have hlt := Nat.mod_lt p hs
  exact ((Nat.div_mod_unique hs).mpr ⟨by omega, by omega⟩).symm

theorem readAt_len_eq_zero {s t len : ℕ} {B : List UInt8} {p : ℕ} (hs : 0 < s) (hp : p ≤ len * s) :
    (readAt s t len B p).len = 0 ↔ p = len * s := by
  have hlt := Nat.div_lt_iff_lt_mul hs (x := p) (y := len)
  have hle := Nat.div_mul_le_self p s
  simp only [readAt]
  constructor
  · intro h
    have : ¬p < len * s := fun h' => by have := hlt.mpr h'; omega
    omega
  · intro h
    rw [h, Nat.mul_div_cancel _ hs, Nat.sub_self]

/-- **One byte of the generic loop of `zap_leaf_array_read`.** -/
theorem readChunk_readAt_cons {s t len : ℕ} {B : List UInt8} {p : ℕ} (hs : 0 < s)
    (hp : p < len * s) (hB : p < B.length) (bs : List UInt8) :
    zapLeafArrayReadChunk s t (B[p] :: bs) (readAt s t len B p) =
      zapLeafArrayReadChunk s t bs (readAt s t len B (p + 1)) := by
  have hlen : ¬(readAt s t len B p).len = 0 := fun h =>
    absurd ((readAt_len_eq_zero hs hp.le).mp h) (by omega)
  have hval : ((readAt s t len B p).value <<< 8 ||| B[p].toUInt64) =
      UInt64.ofNat (beValue (B.take (p + 1))) := by
    apply UInt64.toNat_inj.mp
    rw [toNat_shiftLeft_or, List.take_add_one, List.getElem?_eq_getElem hB, Option.toList_some,
      beValue_concat]
    simp only [readAt, UInt64.toNat_ofNat']
    omega
  rw [zapLeafArrayReadChunk, if_neg hlen, hval]
  dsimp only
  by_cases hend : p % s + 1 = s
  · -- the last byte of an integer: it is stored
    obtain ⟨hmod, hdiv⟩ := succ_div_mod_of_eq hend
    have hend' : (readAt s t len B p).byten + 1 = s := hend
    have hk : (p / s + 1) * s = p + 1 := by
      rw [← hdiv]
      exact Nat.div_mul_cancel (Nat.dvd_of_mod_eq_zero hmod)
    rw [if_pos hend']
    congr 1
    simp only [readAt, hmod, hdiv, List.range_succ, List.map_append, List.map_singleton,
      readStored, hk, ZapArrayReadSt.mk.injEq, true_and, and_true]
    omega
  · obtain ⟨hmod, hdiv⟩ := succ_div_mod_of_ne hs hend
    have hend' : ¬(readAt s t len B p).byten + 1 = s := hend
    rw [if_neg hend']
    simp only [readAt, hmod, hdiv]

/-- **The inner loop of `zap_leaf_array_read` reads on from where it stands**, up to the end of the
integers it is asked for. -/
theorem readChunk_readAt {s t len : ℕ} {B : List UInt8} (hs : 0 < s) :
    ∀ (bs : List UInt8) (p : ℕ), p ≤ len * s → bs <+: B.drop p →
      zapLeafArrayReadChunk s t bs (readAt s t len B p) = readAt s t len B (min (p + bs.length) (len * s))
  | [], p, hp, _ => by simp [zapLeafArrayReadChunk, Nat.min_eq_left hp]
  | b :: bs, p, hp, hpre => by
    obtain ⟨rest, hrest⟩ := hpre
    by_cases hlt : p < len * s
    · have hB : p < B.length := by
        have := congrArg List.length hrest
        simp at this
        omega
      have hb : B[p] = b := by
        have := congrArg (·[0]?) hrest
        simp only [List.getElem?_drop, Nat.add_zero] at this
        rw [List.getElem?_eq_getElem hB] at this
        exact (Option.some.inj this).symm
      have hnext : bs <+: B.drop (p + 1) :=
        ⟨rest, by rw [← List.drop_drop, ← hrest]; rfl⟩
      rw [← hb, readChunk_readAt_cons hs hlt hB, readChunk_readAt hs bs (p + 1) hlt hnext,
        List.length_cons]
      congr 2
      omega
    · -- every integer has been read: the loop stops
      have hp' : p = len * s := by omega
      have hdone := (readAt_len_eq_zero (t := t) (B := B) hs hp).mpr hp'
      rw [zapLeafArrayReadChunk, if_pos hdone, Nat.min_eq_right (by omega), hp']

theorem zapLeafArrayReadLoop_of_len_eq_zero {s t : ℕ} (chain : List (List UInt8))
    {st : ZapArrayReadSt} (h : st.len = 0) : zapLeafArrayReadLoop s t chain st = some st.out := by
  cases chain <;> rw [zapLeafArrayReadLoop, if_pos h]

theorem readLoop_readAt_done {s t len : ℕ} {B : List UInt8} (hs : 0 < s) (chain : List (List UInt8)) :
    zapLeafArrayReadLoop s t chain (readAt s t len B (len * s)) =
      some ((List.range len).map (readStored s t B)) := by
  rw [zapLeafArrayReadLoop_of_len_eq_zero chain ((readAt_len_eq_zero hs le_rfl).mpr rfl)]
  simp [readAt, Nat.mul_div_cancel _ hs]

/-- **The generic loop of `zap_leaf_array_read` along a chain holding the array from byte `p`.** -/
theorem readLoop_readAt {s t len : ℕ} {B : List UInt8} (hs : 0 < s) (hB : len * s ≤ B.length) :
    ∀ (chain : List (List UInt8)) (p : ℕ), p ≤ len * s → chain.flatten = B.drop p →
      zapLeafArrayReadLoop s t chain (readAt s t len B p) =
        some ((List.range len).map (readStored s t B))
  | [], p, hp, hchain => by
    have : B.length ≤ p := by simpa using hchain.symm
    rw [show p = len * s by omega, readLoop_readAt_done hs]
  | la :: chain, p, hp, hchain => by
    by_cases hdone : p = len * s
    · rw [hdone, readLoop_readAt_done hs]
    have hlen : ¬(readAt s t len B p).len = 0 := fun h => hdone ((readAt_len_eq_zero hs hp).mp h)
    rw [zapLeafArrayReadLoop, if_neg hlen]
    have hpre : la <+: B.drop p := ⟨chain.flatten, by rw [← hchain, List.flatten_cons]⟩
    rw [readChunk_readAt hs la p hp hpre]
    by_cases hfits : p + la.length ≤ len * s
    · rw [Nat.min_eq_left hfits]
      refine readLoop_readAt hs hB chain _ hfits ?_
      rw [← List.drop_drop, ← hchain, List.flatten_cons, List.drop_left]
    · rw [Nat.min_eq_right (by omega), readLoop_readAt_done hs]

/-- **The generic loop of `zap_leaf_array_read` stores `readStored` for each integer**, where the
chain holds the bytes of the integers asked for. -/
theorem zapLeafArrayReadLoop_spec {s t len : ℕ} (hs : 0 < s) {chain : List (List UInt8)}
    (hB : len * s ≤ chain.flatten.length) :
    zapLeafArrayReadLoop s t chain ⟨0, 0, len, []⟩ =
      some ((List.range len).map (readStored s t chain.flatten)) := by
  have h0 : (⟨0, 0, len, []⟩ : ZapArrayReadSt) = readAt s t len chain.flatten 0 := by
    simp [readAt]
  rw [h0]
  exact readLoop_readAt hs hB chain 0 (Nat.zero_le _) rfl

/-! ## The fast paths -/

/-- Bytes shifted into a `uint64_t` one after another, as the generic loop does. -/
theorem toNat_foldl_shiftLeft_or (bs : List UInt8) :
    (bs.foldl (fun (v : UInt64) (b : UInt8) => (v <<< 8) ||| b.toUInt64) 0).toNat =
      beValue bs % 2 ^ 64 := by
  induction bs using List.reverseRecOn with
  | nil => rfl
  | append_singleton bs b ih =>
    rw [List.foldl_append, List.foldl_cons, List.foldl_nil, toNat_shiftLeft_or, ih, beValue_concat]
    omega

/-- The one-`uint64_t` fast path computes what shifting the first eight bytes in does. -/
theorem zapLeafArrayReadU64_eq {ip : List UInt8} (h : 8 ≤ ip.length) :
    zapLeafArrayReadU64 ip = UInt64.ofNat (beValue (ip.take 8)) := by
  rcases ip with _ | ⟨b0, _ | ⟨b1, _ | ⟨b2, _ | ⟨b3, _ | ⟨b4, _ | ⟨b5, _ | ⟨b6, _ | ⟨b7, rest⟩⟩⟩⟩⟩⟩⟩⟩
  iterate 8 · simp at h
  -- the eight shifts and ors are the loop's Horner form
  have hhorner : zapLeafArrayReadU64 (b0 :: b1 :: b2 :: b3 :: b4 :: b5 :: b6 :: b7 :: rest) =
      [b0, b1, b2, b3, b4, b5, b6, b7].foldl
        (fun (v : UInt64) (b : UInt8) => (v <<< 8) ||| b.toUInt64) 0 := by
    simp (disch := decide) only [zapLeafArrayReadU64, List.getD_cons_zero, List.getD_cons_succ,
      List.foldl_cons, List.foldl_nil, UInt64.zero_shiftLeft, UInt64.zero_or, UInt64.shiftLeft_or,
      ← UInt64.shiftLeft_add_of_toNat_lt, UInt64.reduceAdd]
  apply UInt64.toNat_inj.mp
  rw [hhorner, toNat_foldl_shiftLeft_or, UInt64.toNat_ofNat']
  rfl

theorem readStored_eight_zero (B : List UInt8) :
    readStored 8 8 B 0 = UInt64.ofNat (beValue (B.take 8)) := rfl

theorem readStored_one_one {B : List UInt8} {k : ℕ} (hk : k < B.length) :
    readStored 1 1 B k = B[k].toUInt64 := by
  apply UInt64.toNat_inj.mp
  rw [readStored, stv, toNat_ldv (Or.inl rfl), UInt64.toNat_ofNat', Nat.mul_one, List.take_add_one,
    List.getElem?_eq_getElem hk, Option.toList_some, beValue_concat, UInt8.toNat_toUInt64]
  have := B[k].toNat_lt
  omega

/-- **Both fast paths of `zap_leaf_array_read` store what the generic loop stores** in the
`min(array_len, buf_len)` integers asked for, on a chain of full chunks holding them. -/
theorem zapLeafArrayRead_fast_paths {s t n m : ℕ} (hs : ZapIntLen s) {chain : List (List UInt8)}
    (hchunks : ∀ la ∈ chain, la.length = zapLeafArrayBytes) (hB : min n m * s ≤ chain.flatten.length) :
    (zapLeafArrayRead chain s n t m).map (·.take (min n m)) =
      some ((List.range (min n m)).map (readStored s t chain.flatten)) := by
  unfold zapLeafArrayRead
  dsimp only
  split_ifs with h8 h1
  · -- one `uint64_t`: the first eight bytes of the first chunk
    obtain ⟨rfl, rfl, hlen⟩ := h8
    rcases chain with _ | ⟨la, chain⟩
    · simp [hlen] at hB
    have hla : 8 ≤ la.length := by simp [hchunks la List.mem_cons_self, zapLeafArrayBytes, zapLeafChunksize]
    simp only [List.head?_cons, Option.map_some, hlen, List.range_one, List.map_singleton,
      readStored_eight_zero, List.flatten_cons, List.take_append_of_le_length hla,
      zapLeafArrayReadU64_eq hla, List.take_succ_cons, List.take_zero]
  · -- byte arrays: every chunk copied whole
    obtain ⟨rfl, rfl, -⟩ := h1
    have hfull : chain.map (fun la => la.take zapLeafArrayBytes) = chain :=
      (List.map_congr_left fun la hla => List.take_of_length_le (hchunks la hla).le).trans
        (List.map_id chain)
    rw [Nat.mul_one] at hB
    simp only [hfull, Option.map_some, Option.some.injEq]
    refine List.ext_getElem ?_ fun k h1 h2 => ?_
    · simp only [List.length_take, List.length_map, List.length_range]
      omega
    simp only [List.getElem_take, List.getElem_map, List.getElem_range]
    rw [readStored_one_one]
  · rw [zapLeafArrayReadLoop_spec hs.pos hB, Option.map_some, List.take_of_length_le (by simp)]

theorem take_zapArrayBytes (s : ℕ) (ints : List UInt64) (j : ℕ) :
    (zapArrayBytes s ints).take (j * s) = zapArrayBytes s (ints.take j) := by
  induction ints generalizing j with
  | nil => simp [zapArrayBytes]
  | cons v ints ih =>
    cases j with
    | zero => simp [zapArrayBytes]
    | succ j =>
      have hv : (beDigits s v.toNat).length = s := length_beDigits s v.toNat
      simp only [zapArrayBytes, List.flatMap_cons, List.take_succ_cons] at ih ⊢
      rw [show (j + 1) * s = (beDigits s v.toNat).length + j * s by rw [hv, Nat.succ_mul, Nat.add_comm],
        List.take_length_add_append, ih]

/-- What the generic loop stores for integer `k` of an array written by `zap_leaf_array_create`:
the integers up to `k` as one number, cut to `buf_int_len` bytes. -/
theorem readStored_zapArrayBytes {s t : ℕ} {B : List UInt8} {buf : List UInt64}
    (hB : B.take (buf.length * s) = zapArrayBytes s buf) {k : ℕ} (hk : k < buf.length) :
    readStored s t B k = stv t (UInt64.ofNat (beValue (zapArrayBytes s (buf.take (k + 1))))) := by
  have hle : (k + 1) * s ≤ buf.length * s := Nat.mul_le_mul_right s hk
  rw [readStored, ← Nat.min_eq_left hle, ← List.take_take, hB, take_zapArrayBytes]

/-- Cut to their own width, the integers up to `k` as one number are integer `k`. -/
theorem stv_zapArrayBytes_take {s : ℕ} (hs : ZapIntLen s) {buf : List UInt64} {k : ℕ}
    (hk : k < buf.length) :
    stv s (UInt64.ofNat (beValue (zapArrayBytes s (buf.take (k + 1))))) = ldv s buf[k] := by
  have htake : zapArrayBytes s (buf.take (k + 1)) =
      zapArrayBytes s (buf.take k) ++ beDigits s buf[k].toNat := by
    rw [List.take_add_one, List.getElem?_eq_getElem hk, Option.toList_some]
    simp only [zapArrayBytes, List.flatMap_append, List.flatMap_cons, List.flatMap_nil, List.append_nil]
  have h64 : 2 ^ (8 * s) ∣ 2 ^ 64 := Nat.pow_dvd_pow 2 (by have := hs.le_eight; omega)
  apply UInt64.toNat_inj.mp
  rw [stv, toNat_ldv hs, toNat_ldv hs, UInt64.toNat_ofNat', Nat.mod_mod_of_dvd _ h64,
    htake, beValue_append, beValue_beDigits, length_beDigits,
    show (256 : ℕ) ^ s = 2 ^ (8 * s) by rw [pow_mul]; rfl, Nat.add_comm, Nat.add_mul_mod_self_right,
    Nat.mod_mod]

/-- **What `zap_leaf_array_read` gives back for an array written by `zap_leaf_array_create`**, at
any width `buf_int_len` and on every path: for each integer `k` of the first `min(n, buf_len)`, the
integers up to `k` as one number, cut to that width. -/
theorem zapLeafArrayRead_create_stored {s t n : ℕ} (hs : ZapIntLen s) {buf : List UInt64}
    (hbuf : buf.length = n) {free : List (List UInt8)}
    (hfree : ∀ c ∈ free, c.length = zapLeafArrayBytes) (hn : zapLeafArrayNchunks (n * s) ≤ free.length)
    {chunks : List (List UInt8)} (hc : zapLeafArrayCreate free buf s n = some chunks) (m : ℕ) :
    (zapLeafArrayRead chunks s n t m).map (·.take (min n m)) =
      some ((List.range (min n m)).map fun k =>
        stv t (UInt64.ofNat (beValue (zapArrayBytes s (buf.take (k + 1)))))) := by
  obtain ⟨chunks', hc', -, hsize, hbytes⟩ := zapLeafArrayCreate_spec hs hbuf hfree hn
  obtain rfl : chunks' = chunks := Option.some.inj (hc'.symm.trans hc)
  have hlen : n * s ≤ chunks'.flatten.length := by
    have := congrArg List.length hbytes
    rw [List.length_take, length_zapArrayBytes, hbuf] at this
    omega
  rw [zapLeafArrayRead_fast_paths hs hsize (le_trans (Nat.mul_le_mul_right s (min_le_left n m)) hlen)]
  congr 1
  refine List.map_congr_left fun k hk => ?_
  rw [← hbuf] at hbytes
  exact readStored_zapArrayBytes hbytes (by simp at hk; omega)

/-- **Round trip**: an array written by `zap_leaf_array_create` and read back at its own width
gives the first `min(n, buf_len)` integers, cut to that width, on every path of
`zap_leaf_array_read`. -/
theorem zapLeafArrayRead_create {s n : ℕ} (hs : ZapIntLen s) {buf : List UInt64}
    (hbuf : buf.length = n) {free : List (List UInt8)}
    (hfree : ∀ c ∈ free, c.length = zapLeafArrayBytes) (hn : zapLeafArrayNchunks (n * s) ≤ free.length)
    {chunks : List (List UInt8)} (hc : zapLeafArrayCreate free buf s n = some chunks) (m : ℕ) :
    (zapLeafArrayRead chunks s n s m).map (·.take (min n m)) = some ((buf.map (ldv s)).take (min n m)) := by
  rw [zapLeafArrayRead_create_stored hs hbuf hfree hn hc m]
  congr 1
  refine List.ext_getElem (by simp [hbuf]) fun k h1 h2 => ?_
  simp only [List.getElem_map, List.getElem_range, List.getElem_take]
  exact stv_zapArrayBytes_take hs (by simp at h1; omega)

/-- The byte-array fast path copies whole chunks, and they fit in the caller's buffer: the chain
of an array of `array_len` bytes has `ZAP_LEAF_ARRAY_NCHUNKS(array_len)` chunks, and the path is
taken only when `buf_len > array_len + ZAP_LEAF_ARRAY_BYTES`. -/
theorem zapLeafArrayRead_bytes_fit {chain : List (List UInt8)} {arrayLen bufLen : ℕ}
    (hchain : chain.length = zapLeafArrayNchunks arrayLen)
    (hchunks : ∀ la ∈ chain, la.length = zapLeafArrayBytes) (h : bufLen > arrayLen + zapLeafArrayBytes) :
    ((chain.map fun la => la.take zapLeafArrayBytes).flatten.map UInt8.toUInt64).length < bufLen := by
  have hsum : ((chain.map fun la => la.take zapLeafArrayBytes).flatten).length =
      chain.length * zapLeafArrayBytes := by
    rw [List.length_flatten, List.map_map]
    rw [List.map_congr_left (g := fun _ => zapLeafArrayBytes) fun la hla => by
      simp [hchunks la hla]]
    simp
  rw [List.length_map, hsum, hchain]
  simp only [zapLeafArrayNchunks, zapLeafArrayBytes, zapLeafChunksize] at h ⊢
  omega

/-! ## Matching a name -/

/-- The bytes of a chain of full chunks from the next chunk `la` on, taken up to `j`: the bytes
of `la` the walk compares, then the rest. -/
theorem take_cons_flatten {la : List UInt8} {rest : List (List UInt8)}
    (hla : la.length = zapLeafArrayBytes) (j : ℕ) :
    (la :: rest).flatten.take j =
      la.take (min j zapLeafArrayBytes) ++ rest.flatten.take (j - min j zapLeafArrayBytes) := by
  rw [List.flatten_cons, List.take_append, hla]
  by_cases hj : j ≤ zapLeafArrayBytes
  · rw [Nat.min_eq_left hj, Nat.sub_eq_zero_of_le hj, Nat.sub_self]
  · rw [Nat.min_eq_right (by omega), List.take_of_length_le (by rw [hla]; omega),
      List.take_of_length_le hla.le]

/-- **The exact-match walk of `zap_leaf_array_match`** from `bseen` on compares the rest of the
stored name with the rest of the key. -/
theorem zapLeafArrayMatchLoop_spec {n : ℕ} {key : List UInt8} :
    ∀ (chain : List (List UInt8)) (bseen : ℕ), (∀ la ∈ chain, la.length = zapLeafArrayBytes) →
      bseen ≤ n → n - bseen ≤ chain.flatten.length →
      zapLeafArrayMatchLoop n key chain bseen =
        some (decide (chain.flatten.take (n - bseen) = (key.drop bseen).take (n - bseen)))
  | [], bseen, _, hle, hlen => by
    have hb : bseen = n := by simp at hlen; omega
    rw [zapLeafArrayMatchLoop, if_neg (by omega), hb]
    simp
  | la :: chain, bseen, hchunks, hle, hlen => by
    have hla := hchunks la List.mem_cons_self
    rw [zapLeafArrayMatchLoop]
    by_cases hlt : bseen < n
    · rw [if_pos hlt]
      dsimp only
      have hj : min (n - bseen) zapLeafArrayBytes ≤ n - bseen := Nat.min_le_left _ _
      split_ifs with hne
      · -- a chunk differs: so do the name and the key
        have hdiff : ¬(la :: chain).flatten.take (n - bseen) = (key.drop bseen).take (n - bseen) :=
          fun h => hne (by
            have := congrArg (List.take (min (n - bseen) zapLeafArrayBytes)) h
            rwa [List.take_take, List.take_take, Nat.min_eq_left hj, List.flatten_cons,
              List.take_append_of_le_length (by rw [hla]; exact Nat.min_le_right _ _)] at this)
        rw [decide_eq_false hdiff, beq_eq_false_iff_ne.mpr (by omega)]
      · -- the chunk agrees: the rest of the key against the rest of the chain
        have hkey : (key.drop bseen).take (n - bseen) =
            (key.drop bseen).take (min (n - bseen) zapLeafArrayBytes) ++
              (key.drop (bseen + min (n - bseen) zapLeafArrayBytes)).take
                (n - bseen - min (n - bseen) zapLeafArrayBytes) := by
          rw [← List.drop_drop, ← List.take_add, Nat.add_sub_cancel' hj]
        have hrest : n - (bseen + min (n - bseen) zapLeafArrayBytes) ≤ chain.flatten.length := by
          simp only [List.flatten_cons, List.length_append, hla] at hlen
          omega
        rw [zapLeafArrayMatchLoop_spec chain _ (fun c hc => hchunks c (List.mem_cons_of_mem _ hc))
            (by omega) hrest, take_cons_flatten hla, hkey, not_not.mp hne]
        simp only [List.append_cancel_left_eq, Nat.sub_sub]
    · rw [if_neg hlt, show bseen = n by omega]
      simp

/-- A name read back byte by byte is the first `n` bytes of its chain. -/
theorem zapLeafArrayRead_name {chain : List (List UInt8)} {n : ℕ} (hB : n ≤ chain.flatten.length) :
    zapLeafArrayRead chain 1 n 1 n = some ((chain.flatten.take n).map UInt8.toUInt64) := by
  rw [zapLeafArrayRead, if_neg (by omega), if_neg (by omega), Nat.min_self,
    zapLeafArrayReadLoop_spec Nat.one_pos (by omega)]
  congr 1
  refine List.ext_getElem ?_ fun k h1 h2 => ?_
  · simp only [List.length_take, List.length_map, List.length_range]
    omega
  simp only [List.getElem_map, List.getElem_range, List.getElem_take]
  exact readStored_one_one _

theorem map_toUInt64_beq (xs ys : List UInt8) :
    (xs.map UInt8.toUInt64 == ys.map UInt8.toUInt64) = decide (xs = ys) := by
  rw [Bool.eq_iff_iff, beq_iff_eq, decide_eq_true_iff]
  exact List.map_inj_right fun a b h => UInt8.toUInt64_inj.mp h

/-- **The exact-match fast path of `zap_leaf_array_match` agrees with reading the name and
comparing it with the key**, on a chain of full chunks holding the name. -/
theorem zapLeafArrayMatchExact_eq_read {chain : List (List UInt8)} {n : ℕ} {key : List UInt8}
    (hchunks : ∀ la ∈ chain, la.length = zapLeafArrayBytes) (hB : n ≤ chain.flatten.length) :
    zapLeafArrayMatchExact chain n key =
      (zapLeafArrayRead chain 1 n 1 n).map (· == key.map UInt8.toUInt64) := by
  rw [zapLeafArrayRead_name hB, Option.map_some, map_toUInt64_beq, zapLeafArrayMatchExact]
  by_cases hn : n = key.length
  · rw [if_neg (not_not.mpr hn), zapLeafArrayMatchLoop_spec chain 0 hchunks (Nat.zero_le _) (by omega)]
    simp [hn]
  · rw [if_pos hn]
    have : chain.flatten.take n ≠ key := fun h => hn (by rw [← h, List.length_take]; omega)
    simp [this]

/-! ## What is written is read back -/

/-- **An array written by `zap_leaf_array_create` reads back.**  Into a leaf with enough free
chunks, `n` integers of `s` bytes take exactly `ZAP_LEAF_ARRAY_NCHUNKS(n * s)` chunks; read back at
their own width, on every path of `zap_leaf_array_read`, they are the integers cut to that width;
and the byte-array path, taken for a buffer longer than the array by more than a chunk, stores
fewer integers than the buffer holds. -/
theorem zapLeafArray_round_trip {s n : ℕ} (hs : ZapIntLen s) {buf : List UInt64}
    (hbuf : buf.length = n) {free : List (List UInt8)}
    (hfree : ∀ c ∈ free, c.length = zapLeafArrayBytes)
    (hn : zapLeafArrayNchunks (n * s) ≤ free.length) :
    ∃ chunks, zapLeafArrayCreate free buf s n = some chunks ∧
      chunks.length = zapLeafArrayNchunks (n * s) ∧
      (∀ m, (zapLeafArrayRead chunks s n s m).map (·.take (min n m)) =
        some ((buf.map (ldv s)).take (min n m))) ∧
      (s = 1 → ∀ m > n + zapLeafArrayBytes,
        ∃ out, zapLeafArrayRead chunks 1 n 1 m = some out ∧ out.length < m) := by
  obtain ⟨chunks, hc, hlen, hfull, -⟩ := zapLeafArrayCreate_spec hs hbuf hfree hn
  refine ⟨chunks, hc, hlen, zapLeafArrayRead_create hs hbuf hfree hn hc, ?_⟩
  rintro rfl m hm
  rw [Nat.mul_one] at hlen
  refine ⟨_, ?_, zapLeafArrayRead_bytes_fit hlen hfull hm⟩
  rw [zapLeafArrayRead, if_neg (fun h => absurd h.1 (by decide)), if_pos ⟨rfl, rfl, hm⟩]

/-- Three `uint64_t`s in two free chunks. -/
theorem zapLeafArray_round_trip_three :
    ZapIntLen 8 ∧ ([1, 2, 3] : List UInt64).length = 3 ∧
      (∀ c ∈ [List.replicate zapLeafArrayBytes 0, List.replicate zapLeafArrayBytes 0],
        c.length = zapLeafArrayBytes) ∧
      zapLeafArrayNchunks (3 * 8) ≤
        [List.replicate zapLeafArrayBytes (0 : UInt8), List.replicate zapLeafArrayBytes 0].length ∧
      ∃ chunks, zapLeafArrayCreate [List.replicate zapLeafArrayBytes 0,
          List.replicate zapLeafArrayBytes 0] [1, 2, 3] 8 3 = some chunks ∧
        chunks.length = zapLeafArrayNchunks (3 * 8) ∧
        (∀ m, (zapLeafArrayRead chunks 8 3 8 m).map (·.take (min 3 m)) =
          some (([1, 2, 3] : List UInt64).map (ldv 8) |>.take (min 3 m))) ∧
        (8 = 1 → ∀ m > 3 + zapLeafArrayBytes,
          ∃ out, zapLeafArrayRead chunks 1 3 1 m = some out ∧ out.length < m) :=
  ⟨.inr (.inr (.inr rfl)), rfl, by decide, by decide,
    zapLeafArray_round_trip (.inr (.inr (.inr rfl))) rfl (by decide) (by decide)⟩

/-- The bytes of a name written as one-byte integers are the name. -/
theorem zapArrayBytes_one (name : List UInt8) : zapArrayBytes 1 (name.map UInt8.toUInt64) = name := by
  induction name with
  | nil => rfl
  | cons b name ih =>
    simp only [zapArrayBytes, List.map_cons, List.flatMap_cons] at ih ⊢
    rw [ih]
    simp [beDigits]

/-- **A name written by `zap_leaf_array_create` is matched by itself alone**: into a leaf with
enough free chunks, the exact-match path of `zap_leaf_array_match` on the chain of the name accepts
a key if and only if the key is the name. -/
theorem zapLeafArrayMatch_create_name {name : List UInt8} {free : List (List UInt8)}
    (hfree : ∀ c ∈ free, c.length = zapLeafArrayBytes)
    (hn : zapLeafArrayNchunks name.length ≤ free.length) :
    ∃ chunks, zapLeafArrayCreate free (name.map UInt8.toUInt64) 1 name.length = some chunks ∧
      ∀ key : List UInt8, zapLeafArrayMatchExact chunks name.length key = some (key == name) := by
  have hn' : zapLeafArrayNchunks (name.length * 1) ≤ free.length := by rwa [Nat.mul_one]
  obtain ⟨chunks, hc, -, hfull, hbytes⟩ :=
    zapLeafArrayCreate_spec (.inl rfl) (List.length_map _) hfree hn'
  rw [Nat.mul_one, zapArrayBytes_one] at hbytes
  have hB : name.length ≤ chunks.flatten.length := by
    have := congrArg List.length hbytes
    rw [List.length_take] at this
    omega
  refine ⟨chunks, hc, fun key => ?_⟩
  rw [zapLeafArrayMatchExact_eq_read hfull hB, zapLeafArrayRead_name hB, hbytes, Option.map_some,
    map_toUInt64_beq]
  congr 1
  rw [Bool.eq_iff_iff, decide_eq_true_iff, beq_iff_eq]
  exact eq_comm

/-- The name `abc` in one free chunk. -/
theorem zapLeafArrayMatch_create_name_abc :
    (∀ c ∈ [List.replicate zapLeafArrayBytes 0], c.length = zapLeafArrayBytes) ∧
      zapLeafArrayNchunks ([0x61, 0x62, 0x63] : List UInt8).length ≤
        [List.replicate zapLeafArrayBytes (0 : UInt8)].length ∧
      ∃ chunks, zapLeafArrayCreate [List.replicate zapLeafArrayBytes 0]
          (([0x61, 0x62, 0x63] : List UInt8).map UInt8.toUInt64) 1 3 = some chunks ∧
        ∀ key : List UInt8, zapLeafArrayMatchExact chunks 3 key = some (key == [0x61, 0x62, 0x63]) :=
  ⟨by decide, by decide, zapLeafArrayMatch_create_name (by decide) (by decide)⟩

/-! ## Reading wider integers -/

/-- Two one-byte integers `1, 2` stored in a fresh chunk and read back into `uint64_t`s. -/
theorem zapLeafArrayRead_widen_mixes :
    zapLeafArrayCreate [List.replicate zapLeafArrayBytes 0] [1, 2] 1 2 =
        some [[1, 2] ++ List.replicate 19 0] ∧
      zapLeafArrayRead [[1, 2] ++ List.replicate 19 0] 1 2 8 2 = some [1, 0x102] := by
  constructor <;> rfl

end Zfs
