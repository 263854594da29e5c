import Zfs.Spl.Byteorder
import Zfs.Lib.Except

/-!
# Compress/Zle — zero-length encoding, `zle.c`

A ZLE stream is a list of chunks: a length byte `b` and then, when `b < n`, the `b + 1` literal
bytes that follow, or, when `b ≥ n`, a run of `b + 1 - n` zeros (`ZleChunk`, `ZleChunk.encode`).
`zle_compress` cuts its source into such chunks — a zero run of at most `256 - n` zeros, or a
literal run of at most `n` bytes that takes isolated zeros and stops before a pair — for as long as
the destination has room; `zle_decompress` takes one chunk a turn, refusing one that runs past
either buffer.

* `zleCompressLoop_chunks`: a compression that consumes its source wrote the encoding of a list
  of well-formed chunks that decode to the source;
* `zleDecompressLoop_chunks`: the decompressor inverts any list of well-formed chunks;
* `zleCompress_length_le`, `zleCompressLoop_fuel`: no byte is written past `d_len`, and the loop
  ends within as many turns as the source has bytes;
* `zleDecompressLoop_safe`, `zleDecompressLoop_fuel`, **`zleDecompress_safe`**: on any input the
  decompressor loads only inside the source, writes only inside the destination, and ends.

The pointers of the code are offsets; a load from the source is `bufAt`, which reports a read
past its end.
-/

namespace Zfs

/-! ## The chunks of a stream -/

/-- One chunk of a ZLE stream: a run of zeros, or literal bytes. -/
inductive ZleChunk
  | zeros (r : ℕ)
  | literal (bs : List UInt8)
  deriving DecidableEq, Repr

namespace ZleChunk

/-- The bytes of a chunk in a stream with parameter `n`. -/
def encode (n : ℕ) : ZleChunk → List UInt8
  | zeros r => [UInt8.ofNat (r - 1 + n)]
  | literal bs => UInt8.ofNat (bs.length - 1) :: bs

/-- The bytes a chunk stands for. -/
def decode : ZleChunk → List UInt8
  | zeros r => List.replicate r 0
  | literal bs => bs

/-- A chunk whose length byte fits and says what kind of chunk it is. -/
def WellFormed (n : ℕ) : ZleChunk → Prop
  | zeros r => 1 ≤ r ∧ r - 1 + n ≤ 255
  | literal bs => 1 ≤ bs.length ∧ bs.length ≤ n ∧ bs.length ≤ 256

theorem length_encode_pos (n : ℕ) (c : ZleChunk) : 1 ≤ (c.encode n).length := by
  cases c <;> simp [encode]

theorem length_decode_pos {n : ℕ} {c : ZleChunk} (hc : c.WellFormed n) : 1 ≤ c.decode.length := by
  cases c with
  | zeros r => simpa [decode] using hc.1
  | literal bs => simpa [decode] using hc.1

/-- A stream has at least as many bytes as chunks. -/
theorem length_le_length_encode (n : ℕ) :
    ∀ cs : List ZleChunk, cs.length ≤ (cs.map (encode n)).flatten.length
  | [] => le_rfl
  | c :: cs => by
    have := length_le_length_encode n cs
    have := c.length_encode_pos n
    simp only [List.map_cons, List.flatten_cons, List.length_append, List.length_cons]
    omega

end ZleChunk

/-! ## `zle_compress` -/

/-- The zero run: `while (src < MIN(last, s_end) && src[0] == 0) src++`, with room for `k` more
zeros before `last`. -/
def zleZeroRun : ℕ → List UInt8 → ℕ
  | 0, _ => 0
  | _, [] => 0
  | k + 1, b :: rest => if b = 0 then zleZeroRun k rest + 1 else 0

/-- The literal run: `while (src < MIN(last, s_end) - 1 && (src[0] | src[1])) *dst++ = *src++`,
then `if (src[0]) *dst++ = *src++`, with room for `k` more bytes before `last`. -/
def zleLiteralRun : ℕ → List UInt8 → ℕ
  | _, [] => 0
  | k, b :: tl =>
    match tl with
    | [] => if b ≠ 0 then 1 else 0
    | b' :: _ => if 2 ≤ k ∧ (b ||| b') ≠ 0 then zleLiteralRun (k - 1) tl + 1
      else if b ≠ 0 then 1 else 0

/-- The loop of `zle_compress` over the rest of the source, with the bytes written so far: a
turn needs two bytes of room (`dst < d_end - 1`) and writes a length byte then the run.  A
literal run with fewer than `n` bytes of room stops the loop (`break`) with nothing written. -/
def zleCompressLoop (n dLen : ℕ) : ℕ → List UInt8 → List UInt8 → List UInt8 × List UInt8
  | 0, rest, out => (rest, out)
  | _ + 1, [], out => ([], out)
  | fuel + 1, b :: tl, out =>
    if out.length + 1 < dLen then
      if b = 0 then
        let r := zleZeroRun (256 - n) (b :: tl)
        zleCompressLoop n dLen fuel ((b :: tl).drop r) (out ++ [UInt8.ofNat (r - 1 + n)])
      else if dLen - (out.length + 1) < n then (b :: tl, out)
      else
        let l := zleLiteralRun n (b :: tl)
        zleCompressLoop n dLen fuel ((b :: tl).drop l)
          (out ++ UInt8.ofNat (l - 1) :: (b :: tl).take l)
    else (b :: tl, out)

/-- `zle_compress(s_start, d_start, s_len, d_len, n)`: the bytes written to the destination, and
the length returned — that of the stream if the source was consumed, `s_len` otherwise. -/
def zleCompress (s : List UInt8) (dLen n : ℕ) : List UInt8 × ℕ :=
  let r := zleCompressLoop n dLen s.length s []
  (r.2, if r.1 = [] then r.2.length else s.length)

section Runs

variable {k : ℕ} {l : List UInt8}

theorem zleZeroRun_succ_cons (k : ℕ) (b : UInt8) (rest : List UInt8) :
    zleZeroRun (k + 1) (b :: rest) = if b = 0 then zleZeroRun k rest + 1 else 0 := rfl

theorem zleLiteralRun_singleton (k : ℕ) (b : UInt8) :
    zleLiteralRun k [b] = if b ≠ 0 then 1 else 0 := rfl

theorem zleLiteralRun_cons_cons (k : ℕ) (b b' : UInt8) (tl : List UInt8) :
    zleLiteralRun k (b :: b' :: tl) =
      if 2 ≤ k ∧ (b ||| b') ≠ 0 then zleLiteralRun (k - 1) (b' :: tl) + 1
      else if b ≠ 0 then 1 else 0 := rfl

theorem zleZeroRun_le_length : ∀ k (l : List UInt8), zleZeroRun k l ≤ l.length
  | 0, _ => Nat.zero_le _
  | _ + 1, [] => le_rfl
  | k + 1, b :: rest => by
    rw [zleZeroRun_succ_cons]
    split_ifs
    · simpa using zleZeroRun_le_length k rest
    · exact Nat.zero_le _

theorem zleZeroRun_le : ∀ k (l : List UInt8), zleZeroRun k l ≤ k
  | 0, _ => le_rfl
  | _ + 1, [] => Nat.zero_le _
  | k + 1, b :: rest => by
    rw [zleZeroRun_succ_cons]
    split_ifs
    · simpa using zleZeroRun_le k rest
    · exact Nat.zero_le _

/-- The zero run takes zeros. -/
theorem take_zleZeroRun : ∀ k (l : List UInt8), l.take (zleZeroRun k l) = List.replicate (zleZeroRun k l) 0
  | 0, _ => rfl
  | _ + 1, [] => rfl
  | k + 1, b :: rest => by
    rw [zleZeroRun_succ_cons]
    split_ifs with hb
    · rw [List.take_succ_cons, take_zleZeroRun k rest, hb, List.replicate_succ]
    · rfl

theorem zleZeroRun_pos (hk : 1 ≤ k) {tl : List UInt8} : 1 ≤ zleZeroRun k (0 :: tl) := by
  obtain ⟨k, rfl⟩ := Nat.exists_eq_add_of_le' hk
  simp [zleZeroRun_succ_cons]

theorem zleLiteralRun_le_length : ∀ k (l : List UInt8), zleLiteralRun k l ≤ l.length
  | _, [] => le_rfl
  | _, [_] => by rw [zleLiteralRun_singleton]; split_ifs <;> simp
  | k, b :: b' :: tl => by
    rw [zleLiteralRun_cons_cons]
    split_ifs
    · have := zleLiteralRun_le_length (k - 1) (b' :: tl)
      simp only [List.length_cons] at this ⊢
      omega
    all_goals simp

/-- A literal run takes at most `k` bytes, or one when `k` is 0. -/
theorem zleLiteralRun_le : ∀ k (l : List UInt8), zleLiteralRun k l ≤ max k 1
  | _, [] => Nat.zero_le _
  | _, [_] => by rw [zleLiteralRun_singleton]; split_ifs <;> simp
  | k, b :: b' :: tl => by
    rw [zleLiteralRun_cons_cons]
    split_ifs with h
    · have := zleLiteralRun_le (k - 1) (b' :: tl)
      omega
    all_goals simp

theorem zleLiteralRun_pos {b : UInt8} (hb : b ≠ 0) : ∀ (k : ℕ) (tl : List UInt8),
    1 ≤ zleLiteralRun k (b :: tl)
  | _, [] => by simp [zleLiteralRun_singleton, hb]
  | k, b' :: tl => by
    rw [zleLiteralRun_cons_cons]
    split_ifs <;> simp_all

end Runs

/-- **What a compression that consumes its source wrote**: the encoding of well-formed chunks that
decode to the source. -/
theorem zleCompressLoop_chunks {n dLen : ℕ} (hn1 : 1 ≤ n) (hn : n ≤ 255) :
    ∀ (fuel : ℕ) (rest out : List UInt8), (zleCompressLoop n dLen fuel rest out).1 = [] →
      ∃ cs : List ZleChunk, (∀ c ∈ cs, c.WellFormed n) ∧
        (zleCompressLoop n dLen fuel rest out).2 = out ++ (cs.map (ZleChunk.encode n)).flatten ∧
        (cs.map ZleChunk.decode).flatten = rest
  | 0, rest, out, h => ⟨[], by simp, by simp [zleCompressLoop], by simpa [zleCompressLoop] using h.symm⟩
  | _ + 1, [], out, _ => ⟨[], by simp, by simp [zleCompressLoop], rfl⟩
  | fuel + 1, b :: tl, out, h => by
    rw [zleCompressLoop] at h ⊢
    by_cases hroom : out.length + 1 < dLen
    swap
    · rw [if_neg hroom] at h
      exact absurd h (List.cons_ne_nil _ _)
    rw [if_pos hroom] at h ⊢
    by_cases hb : b = 0
    · -- a zero run of `r` zeros
      rw [if_pos hb] at h ⊢
      set r := zleZeroRun (256 - n) (b :: tl) with hr
      obtain ⟨cs, hwf, hout, hdec⟩ := zleCompressLoop_chunks hn1 hn fuel _ _ h
      refine ⟨.zeros r :: cs, ?_, ?_, ?_⟩
      · have hpos : 1 ≤ r := by rw [hr, hb]; exact zleZeroRun_pos (by omega)
        have hle := zleZeroRun_le (256 - n) (b :: tl)
        exact List.forall_mem_cons.mpr ⟨⟨hpos, by omega⟩, hwf⟩
      · rw [hout]
        simp [ZleChunk.encode]
      · rw [List.map_cons, List.flatten_cons, hdec, ZleChunk.decode, ← take_zleZeroRun,
          List.take_append_drop]
    rw [if_neg hb] at h ⊢
    by_cases hlit : dLen - (out.length + 1) < n
    · rw [if_pos hlit] at h
      exact absurd h (List.cons_ne_nil _ _)
    · -- a literal run of `l` bytes
      rw [if_neg hlit] at h ⊢
      set l := zleLiteralRun n (b :: tl) with hl
      obtain ⟨cs, hwf, hout, hdec⟩ := zleCompressLoop_chunks hn1 hn fuel _ _ h
      have hlen : ((b :: tl).take l).length = l :=
        List.length_take_of_le (zleLiteralRun_le_length n _)
      refine ⟨.literal ((b :: tl).take l) :: cs, ?_, ?_, ?_⟩
      · have hpos : 1 ≤ l := zleLiteralRun_pos hb n tl
        have hle := zleLiteralRun_le n (b :: tl)
        exact List.forall_mem_cons.mpr ⟨⟨by omega, by omega, by omega⟩, hwf⟩
      · rw [hout]
        simp [ZleChunk.encode, hlen]
      · rw [List.map_cons, List.flatten_cons, hdec, ZleChunk.decode, List.take_append_drop]

/-- **No byte is written past `d_len`.** -/
theorem zleCompressLoop_length_le {n dLen : ℕ} : ∀ (fuel : ℕ) (rest out : List UInt8),
    out.length ≤ dLen → (zleCompressLoop n dLen fuel rest out).2.length ≤ dLen
  | 0, _, _, h => h
  | _ + 1, [], _, h => h
  | fuel + 1, b :: tl, out, h => by
    simp only [zleCompressLoop]
    split_ifs with hroom hb hlit
    · exact zleCompressLoop_length_le fuel _ _ (by simp; omega)
    · exact h
    · -- the literal run fits the `n` bytes of room the loop checked for
      refine zleCompressLoop_length_le fuel _ _ ?_
      have hle := zleLiteralRun_le n (b :: tl)
      have htake := List.length_take_le (zleLiteralRun n (b :: tl)) (b :: tl)
      simp only [List.length_append, List.length_cons] at htake ⊢
      omega
    · exact h

theorem zleCompress_length_le (s : List UInt8) (dLen n : ℕ) : (zleCompress s dLen n).1.length ≤ dLen :=
  zleCompressLoop_length_le _ _ _ (Nat.zero_le _)

/-- **The loop ends**: each turn consumes a byte, so more fuel than the source has bytes changes
nothing. -/
theorem zleCompressLoop_fuel {n dLen : ℕ} (hn : n ≤ 255) : ∀ (fuel : ℕ) (rest out : List UInt8),
    rest.length ≤ fuel → zleCompressLoop n dLen (fuel + 1) rest out = zleCompressLoop n dLen fuel rest out
  | 0, [], _, _ => rfl
  | 0, _ :: _, _, h => absurd h (by simp)
  | _ + 1, [], _, _ => rfl
  | fuel + 1, b :: tl, out, h => by
    rw [zleCompressLoop, zleCompressLoop]
    split_ifs with hroom hb hlit
    · refine zleCompressLoop_fuel hn fuel _ _ ?_
      have hpos : 1 ≤ zleZeroRun (256 - n) (b :: tl) := by rw [hb]; exact zleZeroRun_pos (by omega)
      simp only [List.length_drop, List.length_cons] at h ⊢
      omega
    · rfl
    · refine zleCompressLoop_fuel hn fuel _ _ ?_
      have hpos := zleLiteralRun_pos hb n tl
      simp only [List.length_drop, List.length_cons] at h ⊢
      omega
    · rfl

/-! ## `zle_decompress` -/

/-- The loop of `zle_decompress` from source offset `src`, with the bytes written so far:
`.error i` for a load past the source, otherwise the value returned, 0 or -1, and the
destination. -/
def zleDecompressLoop (s : List UInt8) (n dLen : ℕ) :
    ℕ → ℕ → List UInt8 → Except ℕ (ℤ × List UInt8)
  | 0, _, out => .ok (if out.length = dLen then 0 else -1, out)
  | fuel + 1, src, out =>
    if src < s.length ∧ out.length < dLen then do
      let b ← bufAt s src
      let len := 1 + b.toNat
      if len ≤ n then
        if s.length < src + 1 + len ∨ dLen < out.length + len then .ok (-1, out)
        else do
          let lit ← bufRange s (src + 1) len
          zleDecompressLoop s n dLen fuel (src + 1 + len) (out ++ lit)
      else if dLen < out.length + (len - n) then .ok (-1, out)
      else zleDecompressLoop s n dLen fuel (src + 1) (out ++ List.replicate (len - n) 0)
    else .ok (if out.length = dLen then 0 else -1, out)

/-- `zle_decompress(s_start, d_start, s_len, d_len, n)`. -/
def zleDecompress (s : List UInt8) (dLen n : ℕ) : Except ℕ (ℤ × List UInt8) :=
  zleDecompressLoop s n dLen s.length 0 []

section Decode

variable {s : List UInt8} {n dLen : ℕ}

theorem toNat_ofNat_of_le {m : ℕ} (h : m ≤ 255) : (UInt8.ofNat m).toNat = m := by
  rw [UInt8.toNat_ofNat']
  exact Nat.mod_eq_of_lt (by omega)

/-- One well-formed chunk at `src`: the loop writes what it stands for and goes past it. -/
theorem zleDecompressLoop_chunk {c : ZleChunk} (hc : c.WellFormed n) {src : ℕ} {more : List UInt8}
    (hs : s.drop src = c.encode n ++ more) {out : List UInt8}
    (hout : out.length + c.decode.length ≤ dLen) (fuel : ℕ) :
    zleDecompressLoop s n dLen (fuel + 1) src out =
      zleDecompressLoop s n dLen fuel (src + (c.encode n).length) (out ++ c.decode) := by
  have henc := c.length_encode_pos n
  have hdec := ZleChunk.length_decode_pos hc
  have hlen : src + (c.encode n).length ≤ s.length := by
    have := congrArg List.length hs
    simp only [List.length_drop, List.length_append] at this
    omega
  have hsrc : src < s.length := by omega
  have hdst : out.length < dLen := by omega
  -- the length byte is the first byte of the chunk
  have hhead : s[src]? = (c.encode n)[0]? := by
    rw [← Nat.add_zero src, ← List.getElem?_drop, hs, List.getElem?_append_left henc]
  rw [List.getElem?_eq_getElem hsrc] at hhead
  cases c with
  | zeros r =>
    -- a length byte of `r - 1 + n ≥ n`: a run of `r` zeros
    obtain ⟨hr, hrn⟩ := hc
    have hb : bufAt s src = .ok (UInt8.ofNat (r - 1 + n)) := by
      rw [bufAt_of_lt hsrc]
      exact congrArg _ (Option.some.inj hhead)
    simp only [ZleChunk.decode, List.length_replicate] at hout
    rw [zleDecompressLoop, if_pos ⟨hsrc, hdst⟩, hb, Except.ok_bind_eq]
    dsimp only
    rw [toNat_ofNat_of_le hrn, if_neg (by omega), if_neg (by omega)]
    have hlen1 : 1 + (r - 1 + n) - n = r := by omega
    rw [hlen1]
    rfl
  | literal bs =>
    -- a length byte of `bs.length - 1 < n`: the `bs.length` bytes after it
    obtain ⟨hl, hln, hl256⟩ := hc
    have hb : bufAt s src = .ok (UInt8.ofNat (bs.length - 1)) := by
      rw [bufAt_of_lt hsrc]
      exact congrArg _ (Option.some.inj hhead)
    simp only [ZleChunk.decode] at hout
    simp only [ZleChunk.encode, List.length_cons] at hlen
    have hlen1 : 1 + (bs.length - 1) = bs.length := by omega
    rw [zleDecompressLoop, if_pos ⟨hsrc, hdst⟩, hb, Except.ok_bind_eq]
    dsimp only
    rw [toNat_ofNat_of_le (by omega), hlen1, if_pos hln, if_neg (by omega),
      bufRange_of_le (by omega), Except.ok_bind_eq]
    have hlit : (s.drop (src + 1)).take bs.length = bs := by
      rw [← List.drop_drop, hs]
      simp [ZleChunk.encode]
    rw [hlit]
    simp only [ZleChunk.encode, ZleChunk.decode, List.length_cons]
    congr 1
    omega

/-- **The decompressor inverts any list of well-formed chunks.** -/
theorem zleDecompressLoop_chunks : ∀ (cs : List ZleChunk), (∀ c ∈ cs, c.WellFormed n) →
    ∀ (src : ℕ) (out : List UInt8), s.drop src = (cs.map (ZleChunk.encode n)).flatten →
      out.length + (cs.map ZleChunk.decode).flatten.length = dLen → ∀ fuel,
      zleDecompressLoop s n dLen (cs.length + fuel) src out =
        .ok (0, out ++ (cs.map ZleChunk.decode).flatten)
  | [], _, src, out, hs, hout, fuel => by
    simp only [List.map_nil, List.flatten_nil, List.length_nil, Nat.add_zero, List.append_nil]
      at hs hout ⊢
    have hend : s.length ≤ src := by simpa using hs
    cases fuel with
    | zero => simp [zleDecompressLoop, hout]
    | succ fuel =>
      rw [Nat.zero_add, zleDecompressLoop, if_neg (by omega)]
      simp [hout]
  | c :: cs, hwf, src, out, hs, hout, fuel => by
    have hc := hwf c (by simp)
    simp only [List.map_cons, List.flatten_cons, List.length_append] at hs hout
    rw [List.length_cons, Nat.add_right_comm, zleDecompressLoop_chunk hc hs (by omega),
      zleDecompressLoop_chunks cs (fun c hc => hwf c (by simp [hc])) _ _ ?_
        (by rw [List.length_append]; omega)]
    · simp
    · rw [← List.drop_drop, hs, List.drop_left]


/-- **The decompressor is safe on any input**: it loads only inside the source, writes only inside
the destination, and each turn consumes a byte, so more fuel than the source has bytes changes
nothing. -/
theorem zleDecompressLoop_safe : ∀ (fuel src : ℕ) (out : List UInt8), out.length ≤ dLen →
    ∃ r out', zleDecompressLoop s n dLen fuel src out = .ok (r, out') ∧ out'.length ≤ dLen
  | 0, _, out, h => ⟨_, out, rfl, h⟩
  | fuel + 1, src, out, h => by
    rw [zleDecompressLoop]
    by_cases hg : src < s.length ∧ out.length < dLen
    swap
    · exact ⟨_, out, by rw [if_neg hg], h⟩
    rw [if_pos hg, bufAt_of_lt hg.1, Except.ok_bind_eq]
    dsimp only
    split_ifs with hlit hchk hzero
    · exact ⟨_, out, rfl, h⟩
    · -- the literal bytes lie inside the source: the check above said so
      rw [not_or, not_lt, not_lt] at hchk
      rw [bufRange_of_le (by omega), Except.ok_bind_eq]
      refine zleDecompressLoop_safe fuel _ _ ?_
      rw [List.length_append, List.length_take, List.length_drop]
      omega
    · exact ⟨_, out, rfl, h⟩
    · refine zleDecompressLoop_safe fuel _ _ ?_
      rw [List.length_append, List.length_replicate]
      omega

theorem zleDecompressLoop_fuel : ∀ (fuel src : ℕ) (out : List UInt8), s.length - src ≤ fuel →
    zleDecompressLoop s n dLen (fuel + 1) src out = zleDecompressLoop s n dLen fuel src out
  | 0, src, out, h => by
    have hg : ¬ (src < s.length ∧ out.length < dLen) := by omega
    conv_lhs => rw [zleDecompressLoop, if_neg hg]
    rfl
  | fuel + 1, src, out, h => by
    conv_lhs => rw [zleDecompressLoop]
    conv_rhs => rw [zleDecompressLoop]
    by_cases hg : src < s.length ∧ out.length < dLen
    swap
    · rw [if_neg hg, if_neg hg]
    rw [if_pos hg, if_pos hg, bufAt_of_lt hg.1, Except.ok_bind_eq, Except.ok_bind_eq]
    dsimp only
    split_ifs with hlit hchk hzero
    · rfl
    · rw [not_or, not_lt, not_lt] at hchk
      rw [bufRange_of_le (by omega), Except.ok_bind_eq, Except.ok_bind_eq,
        zleDecompressLoop_fuel fuel _ _ (by omega)]
    · rfl
    · rw [zleDecompressLoop_fuel fuel _ _ (by omega)]

end Decode

/-- **`zle_decompress` is safe on any input**: it loads nothing past the end of the source (a
load past it is the model's error), writes nothing past `d_len`, and has ended within as many
turns as the source has bytes. -/
theorem zleDecompress_safe (s : List UInt8) (dLen n : ℕ) :
    (∃ r out, zleDecompress s dLen n = .ok (r, out) ∧ out.length ≤ dLen) ∧
      ∀ k, zleDecompressLoop s n dLen (s.length + k) 0 [] = zleDecompress s dLen n := by
  refine ⟨zleDecompressLoop_safe _ _ _ (Nat.zero_le _), fun k => ?_⟩
  -- each turn past the source's length changes nothing
  induction k with
  | zero => rfl
  | succ k ih => rw [← Nat.add_assoc, zleDecompressLoop_fuel _ _ _ (by omega), ih]

/-- **ZLE round trip** (`zio_compress_data` with `zle_compress` and `zle_decompress`): for every
source and every `1 ≤ n ≤ 255`, the compressor writes nothing past `d_len` and ends, and a
length it returns below the source's decompresses, with the same `n`, to the source. -/
theorem zle_round_trip (s : List UInt8) (dLen n : ℕ) (hn1 : 1 ≤ n) (hn : n ≤ 255) :
    (zleCompress s dLen n).1.length ≤ dLen ∧
      (∀ fuel, s.length ≤ fuel →
        zleCompressLoop n dLen fuel s [] = zleCompressLoop n dLen s.length s []) ∧
      ((zleCompress s dLen n).2 < s.length →
        zleDecompress (zleCompress s dLen n).1 s.length n = .ok (0, s)) := by
  refine ⟨zleCompress_length_le s dLen n, fun fuel hfuel => ?_, fun hc => ?_⟩
  · induction fuel, hfuel using Nat.le_induction with
    | base => rfl
    | succ fuel hle ih => rw [zleCompressLoop_fuel hn fuel s [] hle, ih]
  · -- a returned length below `s_len` means the source was consumed
    have hrest : (zleCompressLoop n dLen s.length s []).1 = [] := by
      by_contra hne
      simp [zleCompress, hne] at hc
    obtain ⟨cs, hwf, hout, hdec⟩ := zleCompressLoop_chunks hn1 hn s.length s [] hrest
    have hstream : (zleCompress s dLen n).1 = (cs.map (ZleChunk.encode n)).flatten := by
      simpa [zleCompress] using hout
    have hcount := ZleChunk.length_le_length_encode n cs
    rw [zleDecompress, hstream]
    obtain ⟨extra, hextra⟩ := Nat.exists_eq_add_of_le hcount
    rw [hextra, zleDecompressLoop_chunks cs hwf 0 [] (by simp) (by simp [hdec]) extra, hdec]
    rfl

/-- The round trip at the table's `n = 64`, on a zero run and a literal into a 16-byte buffer. -/
theorem zle_round_trip_table : 1 ≤ 64 ∧ 64 ≤ 255 ∧
    ((zleCompress [0, 0, 0, 7] 16 64).1.length ≤ 16 ∧
      (∀ fuel, [0, 0, 0, 7].length ≤ fuel →
        zleCompressLoop 64 16 fuel [0, 0, 0, 7] [] =
          zleCompressLoop 64 16 [0, 0, 0, 7].length [0, 0, 0, 7] []) ∧
      ((zleCompress [0, 0, 0, 7] 16 64).2 < [0, 0, 0, 7].length →
        zleDecompress (zleCompress [0, 0, 0, 7] 16 64).1 [0, 0, 0, 7].length 64 =
          .ok (0, [0, 0, 0, 7]))) :=
  ⟨by decide, by decide, zle_round_trip [0, 0, 0, 7] 16 64 (by decide) (by decide)⟩

end Zfs
