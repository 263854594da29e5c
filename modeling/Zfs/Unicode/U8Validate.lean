import Zfs.Lib.Utf8

/-!
# Unicode/U8Validate — `u8_validate` recognises well-formed UTF-8

`u8_validate` walks a byte string one character at a time: `u8_number_of_bytes` gives the length
a lead byte announces, `u8_valid_min_2nd_byte` and `u8_valid_max_2nd_byte` bound the byte after
it, and the other continuation bytes must be `80..BF`.  The results:

* **the tables are Table 3-7** (`seq_iff_tables`): a lead byte and the bytes after it pass the
  three tables iff they form a row of `Utf8.Seq`;
* **the loop accepts exactly the encodings of lists of scalar values** (`u8ValidateLoop_eq_ok_iff`),
  below U+10000 with `U8_VALIDATE_UCS2_RANGE`, and counts their bytes in `ret_val`;
* `u8Validate_utf8` assembles them for the flags `u8_validate` is called with.

`ret_val` is an `int`: the count is exact up to `INT_MAX`, and a string of `2 ^ 31` ASCII bytes,
well formed, cannot have its length returned (`u8Validate_length_overflow`).
-/

namespace Zfs

open Utf8

/-! ## The tables -/

/-- `U8_ILLEGAL_CHAR`. -/
def u8IllegalChar : ℤ := -1

/-- `U8_OUT_OF_RANGE_CHAR`. -/
def u8OutOfRangeChar : ℤ := -2

/-- `U8_MAX_BYTES_UCS2`. -/
def u8MaxBytesUcs2 : ℤ := 3

/-- `U8_VALIDATE_ENTIRE`. -/
def u8ValidateEntire : ℕ := 0x00100000

/-- `U8_VALIDATE_CHECK_ADDITIONAL`. -/
def u8ValidateCheckAdditional : ℕ := 0x00200000

/-- `U8_VALIDATE_UCS2_RANGE`. -/
def u8ValidateUcs2Range : ℕ := 0x00400000

/-- `u8_number_of_bytes[b]`, row by row: `1` for `00..7F`, `U8_ILLEGAL_CHAR` for `80..C1`, `2` for
`C2..DF`, `3` for `E0..EF`, `4` for `F0..F4` and `U8_OUT_OF_RANGE_CHAR` for `F5..FF`. -/
def u8NumberOfBytes (b : UInt8) : ℤ :=
  if b.toNat < 0x80 then 1
  else if b.toNat < 0xC2 then u8IllegalChar
  else if b.toNat < 0xE0 then 2
  else if b.toNat < 0xF0 then 3
  else if b.toNat < 0xF5 then 4
  else u8OutOfRangeChar

/-- `u8_valid_min_2nd_byte[b]`: `A0` after `E0`, `90` after `F0`, `80` after the other lead bytes
`C2..F4`, and `0` elsewhere. -/
def u8ValidMin2ndByte (b : UInt8) : ℕ :=
  if b.toNat = 0xE0 then 0xA0
  else if b.toNat = 0xF0 then 0x90
  else if 0xC2 ≤ b.toNat ∧ b.toNat ≤ 0xF4 then 0x80
  else 0

/-- `u8_valid_max_2nd_byte[b]`: `9F` after `ED`, `8F` after `F4`, `BF` after the other lead bytes
`C2..F4`, and `0` elsewhere. -/
def u8ValidMax2ndByte (b : UInt8) : ℕ :=
  if b.toNat = 0xED then 0x9F
  else if b.toNat = 0xF4 then 0x8F
  else if 0xC2 ≤ b.toNat ∧ b.toNat ≤ 0xF4 then 0xBF
  else 0

/-- `U8_ILLEGAL_NEXT_BYTE_COMMON(c)`. -/
def u8IllegalNextByteCommon (c : UInt8) : Bool := c.toNat < 0x80 || c.toNat > 0xBF

/-- `validate_ucs2_range_only`, the `U8_VALIDATE_UCS2_RANGE` bit of `flag`. -/
def validateUcs2RangeOnly (flag : ℕ) : Bool := flag &&& u8ValidateUcs2Range != 0

/-- The `errnum` of a return of -1. -/
inductive U8Errno
  | eilseq | erange | einval | ebadf
  deriving DecidableEq, Repr

/-! ## The validator -/

/-- The `for (i = 1; i < sz; i++)` over the bytes after a lead byte `f`: the first of them
(`second`) between `u8_valid_min_2nd_byte[f]` and `u8_valid_max_2nd_byte[f]`, the others not
`U8_ILLEGAL_NEXT_BYTE_COMMON`. -/
def u8ValidateTrail (f : UInt8) : Bool → List UInt8 → Except U8Errno Unit
  | _, [] => .ok ()
  | true, b :: bs =>
    if b.toNat < u8ValidMin2ndByte f ∨ b.toNat > u8ValidMax2ndByte f then .error .eilseq
    else u8ValidateTrail f false bs
  | false, b :: bs =>
    if u8IllegalNextByteCommon b then .error .eilseq else u8ValidateTrail f false bs

/-- The checks of one turn of the `while (ib < ibtail)`, on the bytes `f :: rest` from `ib` to
`ibtail`: the length `sz` of the character at `ib`, or the `errnum` of a return of -1. -/
def u8ValidateChar (ucs2 : Bool) (f : UInt8) (rest : List UInt8) : Except U8Errno ℕ :=
  let sz := u8NumberOfBytes f
  if sz = u8IllegalChar then .error .eilseq
  else if sz = u8OutOfRangeChar ∨ (ucs2 = true ∧ sz > u8MaxBytesUcs2) then .error .erange
  else if ((rest.length + 1 : ℕ) : ℤ) < sz then .error .einval
  else if sz = 1 then .ok 1
  else (fun _ => sz.toNat) <$> u8ValidateTrail f true (rest.take (sz.toNat - 1))

/-- A character that passes the checks has at least one byte. -/
theorem one_le_of_u8ValidateChar {ucs2 : Bool} {f : UInt8} {rest : List UInt8} {sz : ℕ}
    (h : u8ValidateChar ucs2 f rest = .ok sz) : 1 ≤ sz := by
  dsimp only [u8ValidateChar] at h
  split_ifs at h with h1 h2 h3 h4
  · cases h
    omega
  · cases ht : u8ValidateTrail f true (rest.take ((u8NumberOfBytes f).toNat - 1)) <;>
      rw [ht] at h <;> cases h
    simp only [u8NumberOfBytes, u8IllegalChar, u8OutOfRangeChar] at h1 h2 h4 ⊢
    split_ifs at h1 h2 h4 ⊢ <;> omega

/-- `u8_validate(u8str, n, list, flag, errnum)` from `ib` on, with `ret_val` so far: `.ok` is the
value returned and `.error e` a return of -1 with `*errnum = e`.  `list` holds the strings of the
`NULL`-terminated array, each without its NUL; a character is refused with `EBADF` when it is one
of them.  `ret_val` is an `int`, counted here modulo `2 ^ 32` (C leaves the overflow undefined). -/
def u8ValidateLoop (list : List (List UInt8)) (flag : ℕ) (retVal : Int32) :
    List UInt8 → Except U8Errno Int32
  | [] => .ok retVal
  | f :: rest =>
    match _hc : u8ValidateChar (validateUcs2RangeOnly flag) f rest with
    | .error e => .error e
    | .ok sz =>
      let retVal := retVal + Int32.ofNat sz
      if flag &&& u8ValidateCheckAdditional ≠ 0 ∧ (f :: rest).take sz ∈ list then .error .ebadf
      else if flag &&& u8ValidateEntire = 0 then .ok retVal
      else u8ValidateLoop list flag retVal ((f :: rest).drop sz)
termination_by s => s.length
decreasing_by
  have := one_le_of_u8ValidateChar ‹_ = Except.ok _›
  simp only [List.length_drop, List.length_cons]
  omega

/-- `u8_validate(u8str, n, list, flag, errnum)` on the `n` bytes at `u8str`, which is not `NULL`. -/
def u8Validate (u8str : List UInt8) (list : List (List UInt8)) (flag : ℕ) :
    Except U8Errno Int32 :=
  u8ValidateLoop list flag 0 u8str

/-- **Well-formed UTF-8**: the concatenation of the shortest-form encodings of a list of scalar
values. -/
def IsUtf8 (s : List UInt8) : Prop := ∃ cs : List Char, s = cs.flatMap String.utf8EncodeChar

/-! ## The tables are Table 3-7 -/

section Tables

variable {f : UInt8}

theorem u8NumberOfBytes_eq_one_iff : u8NumberOfBytes f = 1 ↔ f.toNat < 0x80 := by
  unfold u8NumberOfBytes u8IllegalChar u8OutOfRangeChar
  split_ifs <;> simp <;> omega

theorem u8NumberOfBytes_eq_two_iff : u8NumberOfBytes f = 2 ↔ 0xC2 ≤ f.toNat ∧ f.toNat < 0xE0 := by
  unfold u8NumberOfBytes u8IllegalChar u8OutOfRangeChar
  split_ifs <;> simp <;> omega

theorem u8NumberOfBytes_eq_three_iff :
    u8NumberOfBytes f = 3 ↔ 0xE0 ≤ f.toNat ∧ f.toNat < 0xF0 := by
  unfold u8NumberOfBytes u8IllegalChar u8OutOfRangeChar
  split_ifs <;> simp <;> omega

theorem u8NumberOfBytes_eq_four_iff :
    u8NumberOfBytes f = 4 ↔ 0xF0 ≤ f.toNat ∧ f.toNat < 0xF5 := by
  unfold u8NumberOfBytes u8IllegalChar u8OutOfRangeChar
  split_ifs <;> simp <;> omega

/-- The length table gives a length of at most four, or a negative mark. -/
theorem u8NumberOfBytes_le_four : u8NumberOfBytes f ≤ 4 := by
  unfold u8NumberOfBytes u8IllegalChar u8OutOfRangeChar
  split_ifs <;> omega

theorem one_le_u8NumberOfBytes (h1 : u8NumberOfBytes f ≠ u8IllegalChar)
    (h2 : u8NumberOfBytes f ≠ u8OutOfRangeChar) : 1 ≤ u8NumberOfBytes f := by
  unfold u8NumberOfBytes u8IllegalChar u8OutOfRangeChar at *
  split_ifs at h1 h2 ⊢ <;> omega

/-- The bounds on the byte after a lead byte `C2..F4`: a continuation byte, at least `A0` after
`E0` and `90` after `F0`, at most `9F` after `ED` and `8F` after `F4`. -/
theorem u8Valid2ndByte_iff (hf : 0xC2 ≤ f.toNat ∧ f.toNat ≤ 0xF4) (x : ℕ) :
    (u8ValidMin2ndByte f ≤ x ∧ x ≤ u8ValidMax2ndByte f) ↔
      0x80 ≤ x ∧ x ≤ 0xBF ∧ (f.toNat = 0xE0 → 0xA0 ≤ x) ∧ (f.toNat = 0xF0 → 0x90 ≤ x) ∧
        (f.toNat = 0xED → x ≤ 0x9F) ∧ (f.toNat = 0xF4 → x ≤ 0x8F) := by
  unfold u8ValidMin2ndByte u8ValidMax2ndByte
  split_ifs <;> omega

/-- Past the second byte the trail asks every byte to be a continuation byte. -/
theorem u8ValidateTrail_false_eq_ok_iff {t : List UInt8} :
    u8ValidateTrail f false t = .ok () ↔ ∀ b ∈ t, Tail b := by
  induction t with
  | nil => simp [u8ValidateTrail]
  | cons b t ih =>
    rw [u8ValidateTrail, List.forall_mem_cons, ← ih]
    by_cases hb : Tail b
    · have hok : u8IllegalNextByteCommon b = false := by
        unfold u8IllegalNextByteCommon
        unfold Tail at hb
        simp only [Bool.or_eq_false_iff, decide_eq_false_iff_not]
        omega
      simp [hok, hb]
    · have hill : u8IllegalNextByteCommon b = true := by
        unfold u8IllegalNextByteCommon
        unfold Tail at hb
        simp only [Bool.or_eq_true, decide_eq_true_eq]
        omega
      simp [hill, hb]

theorem u8ValidateTrail_true_cons_eq_ok_iff {x : UInt8} {t : List UInt8} :
    u8ValidateTrail f true (x :: t) = .ok () ↔
      (u8ValidMin2ndByte f ≤ x.toNat ∧ x.toNat ≤ u8ValidMax2ndByte f) ∧ ∀ b ∈ t, Tail b := by
  rw [u8ValidateTrail, ← @u8ValidateTrail_false_eq_ok_iff f]
  by_cases hx : u8ValidMin2ndByte f ≤ x.toNat ∧ x.toNat ≤ u8ValidMax2ndByte f
  · rw [if_neg (by omega)]
    simp [hx]
  · rw [if_pos (by omega)]
    simp [hx]

/-- **The tables are Table 3-7**: a lead byte `f` and the bytes `t` after it form a row iff the
length table announces `t` and the checks of the bytes after `f` pass on it. -/
theorem seq_iff_tables {t : List UInt8} :
    Seq (f :: t) ↔ u8NumberOfBytes f = t.length + 1 ∧ u8ValidateTrail f true t = .ok () := by
  rcases t with _ | ⟨x, _ | ⟨y, _ | ⟨z, _ | ⟨w, t⟩⟩⟩⟩
  · simp only [seq_singleton_iff, List.length_nil, Nat.cast_zero, zero_add,
      u8NumberOfBytes_eq_one_iff, u8ValidateTrail, and_true]
    omega
  · rw [seq_pair_iff, u8ValidateTrail_true_cons_eq_ok_iff]
    constructor
    · rintro ⟨hf, hx⟩
      refine ⟨by simpa using u8NumberOfBytes_eq_two_iff.mpr ⟨hf.1, by omega⟩,
        (u8Valid2ndByte_iff (by omega) _).mpr ?_, by simp⟩
      unfold Tail at hx
      omega
    · rintro ⟨hn, hx, -⟩
      have hf := u8NumberOfBytes_eq_two_iff.mp (by simpa using hn)
      have := (u8Valid2ndByte_iff (by omega) _).mp hx
      exact ⟨by omega, by unfold Tail; omega⟩
  · rw [seq_triple_iff, u8ValidateTrail_true_cons_eq_ok_iff]
    constructor
    · rintro ⟨hf, hx, hy, hlow, hsur⟩
      refine ⟨by simpa using u8NumberOfBytes_eq_three_iff.mpr ⟨hf.1, by omega⟩,
        (u8Valid2ndByte_iff (by omega) _).mpr ?_, by simpa using hy⟩
      unfold Tail at hx
      omega
    · rintro ⟨hn, hx, hy⟩
      have hf := u8NumberOfBytes_eq_three_iff.mp (by simpa using hn)
      have := (u8Valid2ndByte_iff (by omega) _).mp hx
      exact ⟨by omega, by unfold Tail; omega, by simpa using hy, by omega, by omega⟩
  · rw [seq_quad_iff, u8ValidateTrail_true_cons_eq_ok_iff]
    constructor
    · rintro ⟨hf, hx, hy, hz, hlow, hhigh⟩
      refine ⟨by simpa using u8NumberOfBytes_eq_four_iff.mpr ⟨hf.1, by omega⟩,
        (u8Valid2ndByte_iff (by omega) _).mpr ?_, by simp [hy, hz]⟩
      unfold Tail at hx
      omega
    · rintro ⟨hn, hx, hyz⟩
      have hf := u8NumberOfBytes_eq_four_iff.mp (by simpa using hn)
      have := (u8Valid2ndByte_iff (by omega) _).mp hx
      simp only [List.mem_cons, List.not_mem_nil, or_false, forall_eq_or_imp, forall_eq] at hyz
      exact ⟨by omega, by unfold Tail; omega, hyz.1, hyz.2, by omega, by omega⟩
  · -- five bytes or more: no row, and the length table announces at most four
    have := @u8NumberOfBytes_le_four f
    refine iff_of_false (fun h => absurd h.length_le (by simp)) fun ⟨hn, _⟩ => ?_
    simp only [List.length_cons] at hn
    omega

end Tables

/-! ## One character -/

section OneChar

variable {ucs2 : Bool} {f : UInt8} {rest : List UInt8} {sz : ℕ}

theorem u8ValidateTrail_eq_error {b : Bool} {t : List UInt8} {e : U8Errno}
    (h : u8ValidateTrail f b t = .error e) : e = .eilseq := by
  induction t generalizing b with
  | nil => cases b <;> cases h
  | cons x t ih =>
    cases b <;> simp only [u8ValidateTrail] at h <;> split_ifs at h
    · cases h
      rfl
    · exact ih h
    · cases h
      rfl
    · exact ih h

/-- **One turn of the loop, inverted**: the checks pass on the bytes `f :: rest` iff these start
with a row of Table 3-7, of at most three bytes under `U8_VALIDATE_UCS2_RANGE`; the turn returns
the row's length. -/
theorem u8ValidateChar_eq_ok_iff :
    u8ValidateChar ucs2 f rest = .ok sz ↔
      ∃ t r, rest = t ++ r ∧ Seq (f :: t) ∧ sz = t.length + 1 ∧ (ucs2 = true → t.length ≤ 2) := by
  constructor
  · intro h
    dsimp only [u8ValidateChar] at h
    split_ifs at h with h1 h2 h3 h4
    · cases h
      exact ⟨[], rest, rfl, seq_iff_tables.mpr ⟨by simpa using h4, rfl⟩, rfl, by simp⟩
    · have hpos := one_le_u8NumberOfBytes h1 (fun h' => h2 (.inl h'))
      cases ht : u8ValidateTrail f true (rest.take ((u8NumberOfBytes f).toNat - 1)) with
      | error e => simp [ht] at h
      | ok u =>
        simp only [ht, Except.map_ok] at h
        have hsz : sz = (u8NumberOfBytes f).toNat := (Except.ok.inj h).symm
        have hle := @u8NumberOfBytes_le_four f
        have hlen : (rest.take ((u8NumberOfBytes f).toNat - 1)).length + 1 =
            (u8NumberOfBytes f).toNat := by
          rw [List.length_take]
          omega
        refine ⟨_, _, (List.take_append_drop _ rest).symm, seq_iff_tables.mpr ⟨by omega, ht⟩,
          by omega, fun hu => ?_⟩
        simp only [hu, true_and, not_or, not_lt, u8MaxBytesUcs2] at h2
        omega
  · rintro ⟨t, r, rfl, hseq, rfl, hucs⟩
    obtain ⟨hn, htr⟩ := seq_iff_tables.mp hseq
    have hle : t.length ≤ 3 := by
      have := hseq.length_le
      simp only [List.length_cons] at this
      omega
    dsimp only [u8ValidateChar]
    rw [hn, if_neg (by simp only [u8IllegalChar]; omega), if_neg ?ucs2,
      if_neg (by simp only [List.length_append]; omega)]
    case ucs2 =>
      simp only [u8OutOfRangeChar, u8MaxBytesUcs2, not_or, not_and, not_lt]
      exact ⟨by omega, fun hu => by have := hucs hu; omega⟩
    rcases t with _ | ⟨x, t⟩
    · simp
    · have htake : ((((x :: t).length : ℤ) + 1).toNat - 1) = (x :: t).length := by omega
      rw [if_neg (by simp only [List.length_cons]; omega), htake, List.take_left, htr]
      simp only [Except.map_ok]
      congr 1

/-- A turn refuses a character with `EILSEQ`, `ERANGE` or `EINVAL`. -/
theorem u8ValidateChar_eq_error {e : U8Errno} (h : u8ValidateChar ucs2 f rest = .error e) :
    e = .eilseq ∨ e = .erange ∨ e = .einval := by
  dsimp only [u8ValidateChar] at h
  split_ifs at h
  · cases h
    exact .inl rfl
  · cases h
    exact .inr (.inl rfl)
  · cases h
    exact .inr (.inr rfl)
  · cases ht : u8ValidateTrail f true (rest.take ((u8NumberOfBytes f).toNat - 1)) with
    | error e' =>
      simp only [ht, Except.map_error] at h
      cases h
      exact .inl (u8ValidateTrail_eq_error ht)
    | ok u => simp [ht] at h

end OneChar

/-! ## The loop -/

section Loop

variable {list : List (List UInt8)} {flag : ℕ} {r : Int32} {f : UInt8} {rest : List UInt8}

theorem u8ValidateLoop_cons_of_error {e : U8Errno}
    (h : u8ValidateChar (validateUcs2RangeOnly flag) f rest = .error e) :
    u8ValidateLoop list flag r (f :: rest) = .error e := by
  rw [u8ValidateLoop]
  split
  · next e' he =>
    rw [h] at he
    cases he
    rfl
  · next sz hs =>
    rw [h] at hs
    cases hs

theorem u8ValidateLoop_cons_of_ok {sz : ℕ}
    (h : u8ValidateChar (validateUcs2RangeOnly flag) f rest = .ok sz) :
    u8ValidateLoop list flag r (f :: rest) =
      if flag &&& u8ValidateCheckAdditional ≠ 0 ∧ (f :: rest).take sz ∈ list then .error .ebadf
      else if flag &&& u8ValidateEntire = 0 then .ok (r + Int32.ofNat sz)
      else u8ValidateLoop list flag (r + Int32.ofNat sz) ((f :: rest).drop sz) := by
  rw [u8ValidateLoop]
  split
  · next e' he =>
    rw [h] at he
    cases he
  · next sz' hs =>
    rw [h] at hs
    cases hs
    rfl

/-- With no `list`, a turn that passes never stops on `EBADF`; with `U8_VALIDATE_ENTIRE` the loop
goes on after the character. -/
theorem u8ValidateLoop_cons_of_ok_entire {sz : ℕ} (hflag : flag &&& u8ValidateEntire ≠ 0)
    (h : u8ValidateChar (validateUcs2RangeOnly flag) f rest = .ok sz) :
    u8ValidateLoop [] flag r (f :: rest) =
      u8ValidateLoop [] flag (r + Int32.ofNat sz) ((f :: rest).drop sz) := by
  rw [u8ValidateLoop_cons_of_ok h, if_neg (by simp), if_neg hflag]

/-- The characters the loop may accept: all of them, or those of at most three bytes under
`U8_VALIDATE_UCS2_RANGE`. -/
def Ucs2Ok (flag : ℕ) (c : Char) : Prop := validateUcs2RangeOnly flag = true → c.utf8Size ≤ 3

/-- **The loop accepts the encoding of a list of scalar values** and counts its bytes. -/
theorem u8ValidateLoop_flatMap (hflag : flag &&& u8ValidateEntire ≠ 0) :
    ∀ (cs : List Char) (r : Int32), (∀ c ∈ cs, Ucs2Ok flag c) →
      u8ValidateLoop [] flag r (cs.flatMap String.utf8EncodeChar) =
        .ok (r + Int32.ofNat (cs.flatMap String.utf8EncodeChar).length)
  | [], r, _ => by simp [u8ValidateLoop]
  | c :: cs, r, hcs => by
    obtain ⟨f, t, hft⟩ := List.exists_cons_of_ne_nil (@String.utf8EncodeChar_ne_nil c)
    have hseq : Seq (f :: t) := hft ▸ seq_utf8EncodeChar c
    have hsize : c.utf8Size = t.length + 1 := by
      rw [← String.length_utf8EncodeChar, hft, List.length_cons]
    have hc : u8ValidateChar (validateUcs2RangeOnly flag) f
        (t ++ cs.flatMap String.utf8EncodeChar) = .ok (t.length + 1) :=
      u8ValidateChar_eq_ok_iff.mpr ⟨t, _, rfl, hseq, rfl, fun hu => by
        have := hcs c (by simp) hu
        omega⟩
    rw [List.flatMap_cons, hft, List.cons_append, u8ValidateLoop_cons_of_ok_entire hflag hc,
      List.drop_succ_cons, List.drop_left,
      u8ValidateLoop_flatMap hflag cs _ (fun c' hc' => hcs c' (by simp [hc']))]
    have hlen : (f :: (t ++ cs.flatMap String.utf8EncodeChar)).length =
        (t.length + 1) + (cs.flatMap String.utf8EncodeChar).length := by
      simp only [List.length_cons, List.length_append]
      omega
    rw [hlen, Int32.add_assoc, ← Int32.ofNat_add]

/-- **What the loop accepts is the encoding of a list of scalar values**, by recursion on the
bytes: each turn takes off a row of Table 3-7, which encodes a scalar value. -/
theorem exists_flatMap_of_u8ValidateLoop (hflag : flag &&& u8ValidateEntire ≠ 0) :
    ∀ (s : List UInt8) (r r' : Int32), u8ValidateLoop [] flag r s = .ok r' →
      ∃ cs : List Char, (∀ c ∈ cs, Ucs2Ok flag c) ∧ s = cs.flatMap String.utf8EncodeChar ∧
        r' = r + Int32.ofNat s.length
  | [], r, r', h => by
    simp only [u8ValidateLoop, Except.ok.injEq] at h
    exact ⟨[], by simp, rfl, by simp [h]⟩
  | f :: rest, r, r', h => by
    cases hc : u8ValidateChar (validateUcs2RangeOnly flag) f rest with
    | error e =>
      rw [u8ValidateLoop_cons_of_error hc] at h
      cases h
    | ok sz =>
      have hpos := one_le_of_u8ValidateChar hc
      rw [u8ValidateLoop_cons_of_ok_entire hflag hc] at h
      obtain ⟨cs, hcs, hdrop, rfl⟩ := exists_flatMap_of_u8ValidateLoop hflag _ _ _ h
      obtain ⟨t, r0, rfl, hseq, rfl, hucs⟩ := u8ValidateChar_eq_ok_iff.mp hc
      rw [List.drop_succ_cons, List.drop_left] at hdrop
      subst hdrop
      obtain ⟨c, hc'⟩ := exists_utf8EncodeChar hseq
      have hsize : c.utf8Size = t.length + 1 := by
        rw [← String.length_utf8EncodeChar, hc', List.length_cons]
      refine ⟨c :: cs, ?_, by rw [List.flatMap_cons, hc', List.cons_append], ?_⟩
      · simp only [List.mem_cons, forall_eq_or_imp]
        exact ⟨fun hu => by have := hucs hu; omega, hcs⟩
      · have hlen : (f :: (t ++ cs.flatMap String.utf8EncodeChar)).length =
            (t.length + 1) + (cs.flatMap String.utf8EncodeChar).length := by
          simp only [List.length_cons, List.length_append]
          omega
        rw [hlen, Int32.add_assoc, ← Int32.ofNat_add, List.drop_succ_cons, List.drop_left]
termination_by s => s.length
decreasing_by
  simp only [List.length_drop, List.length_cons]
  omega

/-- **The loop decides well-formedness**: with `U8_VALIDATE_ENTIRE` and no `list` it returns
the byte count exactly on the encodings of lists of scalar values (of at most three bytes each
under `U8_VALIDATE_UCS2_RANGE`). -/
theorem u8ValidateLoop_eq_ok_iff (hflag : flag &&& u8ValidateEntire ≠ 0) {s : List UInt8}
    {r r' : Int32} :
    u8ValidateLoop [] flag r s = .ok r' ↔
      (∃ cs : List Char, (∀ c ∈ cs, Ucs2Ok flag c) ∧ s = cs.flatMap String.utf8EncodeChar) ∧
        r' = r + Int32.ofNat s.length := by
  constructor
  · intro h
    obtain ⟨cs, hcs, hs, hr⟩ := exists_flatMap_of_u8ValidateLoop hflag s r r' h
    exact ⟨⟨cs, hcs, hs⟩, hr⟩
  · rintro ⟨⟨cs, hcs, rfl⟩, rfl⟩
    exact u8ValidateLoop_flatMap hflag cs r hcs

/-- With no `list`, the loop refuses only with `EILSEQ`, `ERANGE` or `EINVAL`. -/
theorem u8ValidateLoop_eq_error :
    ∀ (s : List UInt8) (r : Int32) (e : U8Errno), u8ValidateLoop [] flag r s = .error e →
      e = .eilseq ∨ e = .erange ∨ e = .einval
  | [], r, e, h => by simp [u8ValidateLoop] at h
  | f :: rest, r, e, h => by
    cases hc : u8ValidateChar (validateUcs2RangeOnly flag) f rest with
    | error e' =>
      rw [u8ValidateLoop_cons_of_error hc] at h
      cases h
      exact u8ValidateChar_eq_error hc
    | ok sz =>
      have hpos := one_le_of_u8ValidateChar hc
      rw [u8ValidateLoop_cons_of_ok hc, if_neg (by simp)] at h
      split_ifs at h
      exact u8ValidateLoop_eq_error _ _ _ h
termination_by s => s.length
decreasing_by
  simp only [List.length_drop, List.length_cons]
  omega

end Loop

/-! ## `u8_validate` -/

section Validate

variable {s : List UInt8}

/-- With `U8_VALIDATE_ENTIRE`, a string shorter than `2 ^ 31` gets its length back exactly when
it is a list of encoded scalar values the flags allow. -/
theorem u8Validate_eq_length_iff {flag : ℕ} (hflag : flag &&& u8ValidateEntire ≠ 0)
    (hn : s.length < 2 ^ 31) :
    (∃ r, u8Validate s [] flag = .ok r ∧ r.toInt = s.length) ↔
      ∃ cs : List Char, (∀ c ∈ cs, Ucs2Ok flag c) ∧ s = cs.flatMap String.utf8EncodeChar := by
  unfold u8Validate
  constructor
  · rintro ⟨r, hr, -⟩
    exact ((u8ValidateLoop_eq_ok_iff hflag).mp hr).1
  · intro hs
    refine ⟨_, (u8ValidateLoop_eq_ok_iff hflag).mpr ⟨hs, rfl⟩, ?_⟩
    rw [Int32.zero_add, Int32.toInt_ofNat_of_lt hn]

/-- Without `U8_VALIDATE_ENTIRE`, `u8_validate` stops after the first character and returns its
length. -/
theorem u8Validate_first_char (c : Char) (rest : List UInt8) :
    u8Validate (String.utf8EncodeChar c ++ rest) [] 0 = .ok (Int32.ofNat c.utf8Size) := by
  obtain ⟨f, t, hft⟩ := List.exists_cons_of_ne_nil (@String.utf8EncodeChar_ne_nil c)
  have hc : u8ValidateChar (validateUcs2RangeOnly 0) f (t ++ rest) = .ok (t.length + 1) :=
    u8ValidateChar_eq_ok_iff.mpr ⟨t, rest, rfl, hft ▸ seq_utf8EncodeChar c, rfl,
      fun h => absurd h (by decide)⟩
  rw [u8Validate, hft, List.cons_append, u8ValidateLoop_cons_of_ok hc, if_neg (by simp),
    if_pos (Nat.zero_and _), Int32.zero_add, ← String.length_utf8EncodeChar, hft,
    List.length_cons]

theorem u8Validate_utf8 (hn : s.length < 2 ^ 31) :
    ((∃ r, u8Validate s [] u8ValidateEntire = .ok r ∧ r.toInt = s.length) ↔ IsUtf8 s) ∧
      (¬IsUtf8 s → ∃ e, u8Validate s [] u8ValidateEntire = .error e ∧
        (e = .eilseq ∨ e = .erange ∨ e = .einval)) ∧
      ((∃ r, u8Validate s [] (u8ValidateEntire ||| u8ValidateUcs2Range) = .ok r ∧
          r.toInt = s.length) ↔
        ∃ cs : List Char, (∀ c ∈ cs, c.val.toNat ≤ 0xFFFF) ∧
          s = cs.flatMap String.utf8EncodeChar) ∧
      ∀ (c : Char) (rest : List UInt8),
        u8Validate (String.utf8EncodeChar c ++ rest) [] 0 = .ok (Int32.ofNat c.utf8Size) := by
  have hE : u8ValidateEntire &&& u8ValidateEntire ≠ 0 := by decide
  have hEU : (u8ValidateEntire ||| u8ValidateUcs2Range) &&& u8ValidateEntire ≠ 0 := by decide
  -- without `U8_VALIDATE_UCS2_RANGE` every character is allowed
  have hall : ∀ c, Ucs2Ok u8ValidateEntire c := fun c h => absurd h (by decide)
  have hentire : (∃ r, u8Validate s [] u8ValidateEntire = .ok r ∧ r.toInt = s.length) ↔
      IsUtf8 s := by
    rw [u8Validate_eq_length_iff hE hn]
    exact ⟨fun ⟨cs, _, hs⟩ => ⟨cs, hs⟩, fun ⟨cs, hs⟩ => ⟨cs, fun c _ => hall c, hs⟩⟩
  refine ⟨hentire, fun hs => ?_, ?_, u8Validate_first_char⟩
  · cases hv : u8Validate s [] u8ValidateEntire with
    | error e => exact ⟨e, rfl, u8ValidateLoop_eq_error s 0 e hv⟩
    | ok r =>
      exact absurd ((u8ValidateLoop_eq_ok_iff hE).mp hv).1
        (fun ⟨cs, _, hcs⟩ => hs ⟨cs, hcs⟩)
  · rw [u8Validate_eq_length_iff hEU hn]
    have hU : validateUcs2RangeOnly (u8ValidateEntire ||| u8ValidateUcs2Range) = true := by decide
    simp only [Ucs2Ok, hU, true_imp_iff, utf8Size_le_three_iff]

/-- `"éx"` in UTF-8: a two-byte character and an ASCII one. -/
def eAcuteX : List UInt8 := [0xC3, 0xA9, 0x78]

theorem u8Validate_utf8_e_acute :
    eAcuteX.length < 2 ^ 31 ∧ IsUtf8 eAcuteX ∧
      ((∃ r, u8Validate eAcuteX [] u8ValidateEntire = .ok r ∧ r.toInt = eAcuteX.length) ↔
        IsUtf8 eAcuteX) ∧
      (¬IsUtf8 eAcuteX → ∃ e, u8Validate eAcuteX [] u8ValidateEntire = .error e ∧
        (e = .eilseq ∨ e = .erange ∨ e = .einval)) ∧
      ((∃ r, u8Validate eAcuteX [] (u8ValidateEntire ||| u8ValidateUcs2Range) = .ok r ∧
          r.toInt = eAcuteX.length) ↔
        ∃ cs : List Char, (∀ c ∈ cs, c.val.toNat ≤ 0xFFFF) ∧ eAcuteX = cs.flatMap String.utf8EncodeChar) ∧
      ∀ (c : Char) (rest : List UInt8),
        u8Validate (String.utf8EncodeChar c ++ rest) [] 0 = .ok (Int32.ofNat c.utf8Size) :=
  ⟨by decide, ⟨['é', 'x'], rfl⟩, u8Validate_utf8 (by decide)⟩

/-- There the whole string is accepted. -/
example : u8Validate eAcuteX [] u8ValidateEntire = .ok 3 := by decide +kernel

/-- A well-formed string of `2 ^ 31` ASCII bytes is accepted, but `ret_val`, an `int`, cannot hold
its length. -/
theorem u8Validate_length_overflow :
    IsUtf8 (List.replicate (2 ^ 31) 'A'.toUInt8) ∧
      (∃ r, u8Validate (List.replicate (2 ^ 31) 'A'.toUInt8) [] u8ValidateEntire = .ok r) ∧
      ∀ r, u8Validate (List.replicate (2 ^ 31) 'A'.toUInt8) [] u8ValidateEntire = .ok r →
        r.toInt ≠ (List.replicate (2 ^ 31) 'A'.toUInt8).length := by
  have henc : (List.replicate (2 ^ 31) 'A').flatMap String.utf8EncodeChar =
      List.replicate (2 ^ 31) 'A'.toUInt8 := by
    rw [List.flatMap_replicate, show String.utf8EncodeChar 'A' = ['A'.toUInt8] from rfl,
      List.flatten_replicate_singleton]
  refine ⟨⟨_, henc.symm⟩, ?_, fun r _ => ?_⟩
  · rw [← henc]
    exact ⟨_, u8ValidateLoop_flatMap (by decide) _ 0 fun c _ h => absurd h (by decide)⟩
  · have := Int32.toInt_lt r
    rw [List.length_replicate]
    omega

end Validate

end Zfs
