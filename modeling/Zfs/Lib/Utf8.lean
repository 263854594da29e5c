import Mathlib.Data.UInt
import Mathlib.Tactic.NormNum

/-!
# Lib/Utf8 — Unicode Table 3-7 and the UTF-8 encoding of scalar values

Lean's `Char` is a Unicode scalar value (U+0000..U+D7FF and U+E000..U+10FFFF) and
`String.utf8EncodeChar` its shortest-form UTF-8 encoding.  `Utf8.Seq` transcribes Table 3-7 of
the Unicode Standard, the well-formed byte sequences of one scalar value, row by row.  A byte
sequence is a row of Table 3-7 exactly when it encodes a scalar value:

* `seq_utf8EncodeChar` — the encoding of every scalar value is a row, read off its arithmetic one
  length at a time;
* `exists_utf8EncodeChar` — every row encodes a scalar value, rebuilt from the payload bits of
  the row (`Seq.exists_encodeNat`).
-/

namespace Utf8

/-- A continuation byte, `80..BF`. -/
def Tail (b : UInt8) : Prop := 0x80 ≤ b.toNat ∧ b.toNat ≤ 0xBF

/-- **Unicode Table 3-7**: the well-formed UTF-8 byte sequences, one constructor per row. -/
inductive Seq : List UInt8 → Prop
  /-- U+0000..U+007F: `00..7F` -/
  | one {a} : a.toNat ≤ 0x7F → Seq [a]
  /-- U+0080..U+07FF: `C2..DF 80..BF` -/
  | two {a b} : 0xC2 ≤ a.toNat → a.toNat ≤ 0xDF → Tail b → Seq [a, b]
  /-- U+0800..U+0FFF: `E0 A0..BF 80..BF` -/
  | e0 {a b c} : a.toNat = 0xE0 → 0xA0 ≤ b.toNat → b.toNat ≤ 0xBF → Tail c → Seq [a, b, c]
  /-- U+1000..U+CFFF: `E1..EC 80..BF 80..BF` -/
  | e1ec {a b c} : 0xE1 ≤ a.toNat → a.toNat ≤ 0xEC → Tail b → Tail c → Seq [a, b, c]
  /-- U+D000..U+D7FF: `ED 80..9F 80..BF` -/
  | ed {a b c} : a.toNat = 0xED → 0x80 ≤ b.toNat → b.toNat ≤ 0x9F → Tail c → Seq [a, b, c]
  /-- U+E000..U+FFFF: `EE..EF 80..BF 80..BF` -/
  | eeef {a b c} : 0xEE ≤ a.toNat → a.toNat ≤ 0xEF → Tail b → Tail c → Seq [a, b, c]
  /-- U+10000..U+3FFFF: `F0 90..BF 80..BF 80..BF` -/
  | f0 {a b c d} : a.toNat = 0xF0 → 0x90 ≤ b.toNat → b.toNat ≤ 0xBF → Tail c → Tail d →
      Seq [a, b, c, d]
  /-- U+40000..U+FFFFF: `F1..F3 80..BF 80..BF 80..BF` -/
  | f1f3 {a b c d} : 0xF1 ≤ a.toNat → a.toNat ≤ 0xF3 → Tail b → Tail c → Tail d →
      Seq [a, b, c, d]
  /-- U+100000..U+10FFFF: `F4 80..8F 80..BF 80..BF` -/
  | f4 {a b c d} : a.toNat = 0xF4 → 0x80 ≤ b.toNat → b.toNat ≤ 0x8F → Tail c → Tail d →
      Seq [a, b, c, d]

/-! ## The rows by length

Each length of Table 3-7 as a lead-byte range, continuation bytes, and the bound on the second
byte after the lead bytes `E0`, `ED`, `F0` and `F4`. -/

theorem seq_singleton_iff {a : UInt8} : Seq [a] ↔ a.toNat ≤ 0x7F :=
  ⟨fun h => by cases h with | one ha => exact ha, .one⟩

theorem seq_pair_iff {a b : UInt8} : Seq [a, b] ↔ (0xC2 ≤ a.toNat ∧ a.toNat ≤ 0xDF) ∧ Tail b :=
  ⟨fun h => by cases h with | two ha ha' hb => exact ⟨⟨ha, ha'⟩, hb⟩,
    fun ⟨ha, hb⟩ => .two ha.1 ha.2 hb⟩

theorem seq_triple_iff {a b c : UInt8} :
    Seq [a, b, c] ↔ (0xE0 ≤ a.toNat ∧ a.toNat ≤ 0xEF) ∧ Tail b ∧ Tail c ∧
      (a.toNat = 0xE0 → 0xA0 ≤ b.toNat) ∧ (a.toNat = 0xED → b.toNat ≤ 0x9F) := by
  constructor
  · intro h
    cases h with
    | e0 ha hb hb' hc => exact ⟨by omega, ⟨by omega, hb'⟩, hc, fun _ => hb, by omega⟩
    | e1ec ha ha' hb hc => exact ⟨by omega, hb, hc, by omega, by omega⟩
    | ed ha hb hb' hc => exact ⟨by omega, ⟨hb, by omega⟩, hc, by omega, fun _ => hb'⟩
    | eeef ha ha' hb hc => exact ⟨by omega, hb, hc, by omega, by omega⟩
  · rintro ⟨ha, hb, hc, hlow, hsur⟩
    -- the four rows of three bytes part the lead bytes at `E1`, `ED` and `EE`
    rcases (by omega : a.toNat = 0xE0 ∨ (0xE1 ≤ a.toNat ∧ a.toNat ≤ 0xEC) ∨ a.toNat = 0xED ∨
        (0xEE ≤ a.toNat ∧ a.toNat ≤ 0xEF)) with h | h | h | h
    · exact .e0 h (hlow h) hb.2 hc
    · exact .e1ec h.1 h.2 hb hc
    · exact .ed h hb.1 (hsur h) hc
    · exact .eeef h.1 h.2 hb hc

theorem seq_quad_iff {a b c d : UInt8} :
    Seq [a, b, c, d] ↔ (0xF0 ≤ a.toNat ∧ a.toNat ≤ 0xF4) ∧ Tail b ∧ Tail c ∧ Tail d ∧
      (a.toNat = 0xF0 → 0x90 ≤ b.toNat) ∧ (a.toNat = 0xF4 → b.toNat ≤ 0x8F) := by
  constructor
  · intro h
    cases h with
    | f0 ha hb hb' hc hd => exact ⟨by omega, ⟨by omega, hb'⟩, hc, hd, fun _ => hb, by omega⟩
    | f1f3 ha ha' hb hc hd => exact ⟨by omega, hb, hc, hd, by omega, by omega⟩
    | f4 ha hb hb' hc hd => exact ⟨by omega, ⟨hb, by omega⟩, hc, hd, by omega, fun _ => hb'⟩
  · rintro ⟨ha, hb, hc, hd, hlow, hhigh⟩
    rcases (by omega : a.toNat = 0xF0 ∨ (0xF1 ≤ a.toNat ∧ a.toNat ≤ 0xF3) ∨ a.toNat = 0xF4) with
      h | h | h
    · exact .f0 h (hlow h) hb.2 hc hd
    · exact .f1f3 h.1 h.2 hb hc hd
    · exact .f4 h hb.1 (hhigh h) hc hd

/-- The scalar values of at most three bytes are those of the Basic Multilingual Plane. -/
theorem utf8Size_le_three_iff (c : Char) : c.utf8Size ≤ 3 ↔ c.val.toNat ≤ 0xFFFF := by
  have h4 := Char.utf8Size_le_four c
  rw [show c.utf8Size ≤ 3 ↔ ¬c.utf8Size = 4 by omega, Char.utf8Size_eq_four_iff,
    UInt32.lt_iff_toNat_lt]
  simp

/-- No row is longer than four bytes. -/
theorem Seq.length_le {bs : List UInt8} (h : Seq bs) : bs.length ≤ 4 := by
  cases h <;> simp

/-! ## The encoding of a scalar value is a row -/

theorem toNat_ofNat_of_lt {n : ℕ} (h : n < 256) : (UInt8.ofNat n).toNat = n := by
  simp [Nat.mod_eq_of_lt h]

/-- A scalar value is below the surrogates, or above them and below `0x110000`. -/
theorem toNat_isValidChar (c : Char) : c.toNat < 0xD800 ∨ 0xDFFF < c.toNat ∧ c.toNat < 0x110000 :=
  c.valid

theorem seq_utf8EncodeChar (c : Char) : Seq (String.utf8EncodeChar c) := by
  have hv := toNat_isValidChar c
  simp only [Char.toNat] at hv
  dsimp only [String.utf8EncodeChar]
  split_ifs with h1 h2 h3
  · exact .one (by rw [toNat_ofNat_of_lt (by omega)]; omega)
  · refine .two ?_ ?_ ⟨?_, ?_⟩ <;> rw [toNat_ofNat_of_lt (by omega)] <;> omega
  · -- the three-byte rows part at `0x1000`, `0xD000` and the surrogates
    rcases (by omega : c.val.toNat < 0x1000 ∨ (0x1000 ≤ c.val.toNat ∧ c.val.toNat < 0xD000) ∨
        (0xD000 ≤ c.val.toNat ∧ c.val.toNat < 0xD800) ∨ 0xE000 ≤ c.val.toNat) with
      h | h | h | h
    · refine .e0 ?_ ?_ ?_ ⟨?_, ?_⟩ <;> rw [toNat_ofNat_of_lt (by omega)] <;> omega
    · refine .e1ec ?_ ?_ ⟨?_, ?_⟩ ⟨?_, ?_⟩ <;> rw [toNat_ofNat_of_lt (by omega)] <;> omega
    · refine .ed ?_ ?_ ?_ ⟨?_, ?_⟩ <;> rw [toNat_ofNat_of_lt (by omega)] <;> omega
    · refine .eeef ?_ ?_ ⟨?_, ?_⟩ ⟨?_, ?_⟩ <;> rw [toNat_ofNat_of_lt (by omega)] <;> omega
  · rcases (by omega : c.val.toNat < 0x40000 ∨ (0x40000 ≤ c.val.toNat ∧ c.val.toNat < 0x100000) ∨
        0x100000 ≤ c.val.toNat) with h | h | h
    · refine .f0 ?_ ?_ ?_ ⟨?_, ?_⟩ ⟨?_, ?_⟩ <;> rw [toNat_ofNat_of_lt (by omega)] <;> omega
    · refine .f1f3 ?_ ?_ ⟨?_, ?_⟩ ⟨?_, ?_⟩ ⟨?_, ?_⟩ <;> rw [toNat_ofNat_of_lt (by omega)] <;> omega
    · refine .f4 ?_ ?_ ?_ ⟨?_, ?_⟩ ⟨?_, ?_⟩ <;> rw [toNat_ofNat_of_lt (by omega)] <;> omega

/-! ## A row is the encoding of a scalar value -/

/-- The numbers of the bytes `String.utf8EncodeChar` gives the scalar value `v`. -/
def encodeNat (v : ℕ) : List ℕ :=
  if v ≤ 0x7F then [v]
  else if v ≤ 0x7FF then [v / 64 % 32 + 0xC0, v % 64 + 0x80]
  else if v ≤ 0xFFFF then [v / 4096 % 16 + 0xE0, v / 64 % 64 + 0x80, v % 64 + 0x80]
  else [v / 262144 % 8 + 0xF0, v / 4096 % 64 + 0x80, v / 64 % 64 + 0x80, v % 64 + 0x80]

theorem map_toNat_utf8EncodeChar (c : Char) :
    (String.utf8EncodeChar c).map UInt8.toNat = encodeNat c.val.toNat := by
  dsimp only [String.utf8EncodeChar, encodeNat]
  split_ifs <;> simp only [List.map_cons, List.map_nil, UInt8.toNat_ofNat', Nat.reducePow,
      List.cons.injEq, and_true] <;>
    omega

theorem encodeNat_two {v : ℕ} (h1 : 0x7F < v) (h2 : v ≤ 0x7FF) :
    encodeNat v = [v / 64 % 32 + 0xC0, v % 64 + 0x80] := by
  rw [encodeNat, if_neg (by omega), if_pos h2]

theorem encodeNat_three {v : ℕ} (h1 : 0x7FF < v) (h2 : v ≤ 0xFFFF) :
    encodeNat v = [v / 4096 % 16 + 0xE0, v / 64 % 64 + 0x80, v % 64 + 0x80] := by
  rw [encodeNat, if_neg (by omega), if_neg (by omega), if_pos h2]

theorem encodeNat_four {v : ℕ} (h1 : 0xFFFF < v) :
    encodeNat v = [v / 262144 % 8 + 0xF0, v / 4096 % 64 + 0x80, v / 64 % 64 + 0x80, v % 64 + 0x80] := by
  rw [encodeNat, if_neg (by omega), if_neg (by omega), if_neg (by omega)]

/-! The payload bits of a lead byte and its continuation bytes make a scalar value that encodes
back to them, given the bound on the second byte that rules out the overlong forms (`E0`, `F0`),
the surrogates (`ED`) and the values above U+10FFFF (`F4`). -/

theorem encodeNat_one {a : ℕ} (ha : a ≤ 0x7F) : a.isValidChar ∧ encodeNat a = [a] :=
  ⟨by simp only [Nat.isValidChar]; omega, by simp [encodeNat, ha]⟩

theorem encodeNat_payload_two {a b : ℕ} (ha : 0xC2 ≤ a ∧ a ≤ 0xDF) (hb : 0x80 ≤ b ∧ b ≤ 0xBF) :
    ((a - 0xC0) * 64 + (b - 0x80)).isValidChar ∧
      encodeNat ((a - 0xC0) * 64 + (b - 0x80)) = [a, b] := by
  refine ⟨by simp only [Nat.isValidChar]; omega, ?_⟩
  rw [encodeNat_two (by omega) (by omega)]
  simp only [List.cons.injEq, and_true]
  omega

theorem encodeNat_payload_three {a b c : ℕ} (ha : 0xE0 ≤ a ∧ a ≤ 0xEF)
    (hb : 0x80 ≤ b ∧ b ≤ 0xBF) (hc : 0x80 ≤ c ∧ c ≤ 0xBF) (hlow : 0xE0 < a ∨ 0xA0 ≤ b)
    (hsur : a ≠ 0xED ∨ b ≤ 0x9F) :
    ((a - 0xE0) * 4096 + (b - 0x80) * 64 + (c - 0x80)).isValidChar ∧
      encodeNat ((a - 0xE0) * 4096 + (b - 0x80) * 64 + (c - 0x80)) = [a, b, c] := by
  refine ⟨by simp only [Nat.isValidChar]; omega, ?_⟩
  rw [encodeNat_three (by omega) (by omega)]
  simp only [List.cons.injEq, and_true]
  omega

theorem encodeNat_payload_four {a b c d : ℕ} (ha : 0xF0 ≤ a ∧ a ≤ 0xF4)
    (hb : 0x80 ≤ b ∧ b ≤ 0xBF) (hc : 0x80 ≤ c ∧ c ≤ 0xBF) (hd : 0x80 ≤ d ∧ d ≤ 0xBF)
    (hlow : 0xF0 < a ∨ 0x90 ≤ b) (hhigh : a < 0xF4 ∨ b ≤ 0x8F) :
    ((a - 0xF0) * 262144 + (b - 0x80) * 4096 + (c - 0x80) * 64 + (d - 0x80)).isValidChar ∧
      encodeNat ((a - 0xF0) * 262144 + (b - 0x80) * 4096 + (c - 0x80) * 64 + (d - 0x80)) =
        [a, b, c, d] := by
  refine ⟨by simp only [Nat.isValidChar]; omega, ?_⟩
  rw [encodeNat_four (by omega)]
  simp only [List.cons.injEq, and_true]
  omega

/-- The payload of a row is a scalar value whose encoding is the row again. -/
theorem Seq.exists_encodeNat {bs : List UInt8} (h : Seq bs) :
    ∃ v : ℕ, v.isValidChar ∧ encodeNat v = bs.map UInt8.toNat := by
  cases h with
  | one ha => exact ⟨_, encodeNat_one ha⟩
  | two ha ha' hb => exact ⟨_, encodeNat_payload_two ⟨ha, ha'⟩ hb⟩
  | e0 ha hb hb' hc =>
    exact ⟨_, encodeNat_payload_three (by omega) ⟨by omega, hb'⟩ hc (by omega) (by omega)⟩
  | e1ec ha ha' hb hc => exact ⟨_, encodeNat_payload_three (by omega) hb hc (by omega) (by omega)⟩
  | ed ha hb hb' hc =>
    exact ⟨_, encodeNat_payload_three (by omega) ⟨hb, by omega⟩ hc (by omega) (by omega)⟩
  | eeef ha ha' hb hc => exact ⟨_, encodeNat_payload_three (by omega) hb hc (by omega) (by omega)⟩
  | f0 ha hb hb' hc hd =>
    exact ⟨_, encodeNat_payload_four (by omega) ⟨by omega, hb'⟩ hc hd (by omega) (by omega)⟩
  | f1f3 ha ha' hb hc hd =>
    exact ⟨_, encodeNat_payload_four (by omega) hb hc hd (by omega) (by omega)⟩
  | f4 ha hb hb' hc hd =>
    exact ⟨_, encodeNat_payload_four (by omega) ⟨hb, by omega⟩ hc hd (by omega) (by omega)⟩

theorem exists_utf8EncodeChar {bs : List UInt8} (h : Seq bs) :
    ∃ c : Char, String.utf8EncodeChar c = bs := by
  obtain ⟨v, hv, henc⟩ := h.exists_encodeNat
  refine ⟨Char.ofNatAux v hv, List.map_injective_iff.mpr (fun _ _ => UInt8.toNat_inj.mp) ?_⟩
  rw [map_toNat_utf8EncodeChar]
  exact henc

end Utf8
