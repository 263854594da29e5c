import Zfs.Nvpair.Table
import Zfs.Spl.Byteorder
import Zfs.Lib.Except

/-!
# Nvpair/Native — `nvlist_unpack` of a native stream

A native stream is the 4-byte `nvs_header_t`, `nvl_version` and `nvl_nvflag`, then the pairs, each
a packed `nvpair_t` of `nvp_size` bytes: the header, the name, and the value at `NVP_VALOFF`.  An
embedded list (`DATA_TYPE_NVLIST`, `DATA_TYPE_NVLIST_ARRAY`) packs its own pairs right after the
pair that holds it, each list closed by four zero bytes.  `nvs_decode_pairs` reads the size of the
next pair, copies its bytes, checks the header and decodes embedded lists (`nvs_native_nvp_op`),
validates the pair (`i_validate_nvpair`) and links it.

The size checks bound every value by `nvp_size` except strings: a string value and the strings of
a string array are measured by `strlen`, which runs to the first NUL wherever it is.  The decoder
is modelled as it is in the kernel (`nvpair_max_recursion` is 20 and there is no
`DATA_TYPE_DOUBLE`); a read of a pair outside its bytes is an outcome of its own, `readPast`.

* `iValidateNvpairName_eq_error` — the name of a pair is read inside the pair, and a bad one is
  `EFAULT`;
* `nvsDecodePairs_ok` — what a successful decode gives: pairs that pass `i_validate_nvpair`, whose
  embedded lists do too, and a cursor that moved forward inside the stream;
* `nvsDecodePairs_ne_fuel` — the decoder terminates: one more step than there are bytes is enough;
* **`nvlistUnpack_native`** — so `nvlist_unpack` of a native stream ends, and every pair it returns
  passes `i_validate_nvpair`.
-/

namespace Zfs

/-! ## Layout (`sys/nvpair.h`) -/

/-- `NV_ALIGN(x)`: `x` rounded up to a multiple of 8. -/
def nvAlign (x : ℕ) : ℕ := (x + 7) / 8 * 8

/-- `sizeof (nvpair_t)`: `nvp_size`, `nvp_name_sz`, `nvp_reserve`, `nvp_value_elem`, `nvp_type`. -/
def sizeofNvpair : ℕ := 16

/-- `sizeof (nvlist_t)`. -/
def sizeofNvlist : ℕ := 24

/-- `NVP_SIZE_CALC(name_len, data_len)`. -/
def nvpSizeCalc (nameLen dataLen : ℕ) : ℕ := nvAlign (sizeofNvpair + nameLen) + nvAlign dataLen

/-- `NVP_VALOFF(nvp)`: the value follows the header and the name. -/
def nvpValoff (nameSz : ℕ) : ℕ := nvAlign (sizeofNvpair + nameSz)

/-- `NV_VERSION`, `NV_ENCODE_NATIVE`, `NV_ENCODE_XDR`. -/
def nvVersion : Int32 := 0
def nvEncodeNative : UInt8 := 0
def nvEncodeXdr : UInt8 := 1

/-- `nvpair_max_recursion` in the kernel. -/
def nvpairMaxRecursion : ℕ := 20

/-- `INT32_MAX`. -/
def int32Max : ℕ := 0x7FFFFFFF

/-- `EFAULT`, `EINVAL`, `ENOTSUP`. -/
def efault : ℤ := 14
def einval : ℤ := 22
def enotsup : ℤ := 95

/-- The `data_type_t` values, in the order of the enumeration. -/
def DataType.all : List DataType :=
  [.unknown, .boolean, .byte, .int16, .uint16, .int32, .uint32, .int64, .uint64, .string,
    .byteArray, .int16Array, .uint16Array, .int32Array, .uint32Array, .int64Array, .uint64Array,
    .stringArray, .hrtime, .nvlist, .nvlistArray, .booleanValue, .int8, .uint8, .booleanArray,
    .int8Array, .uint8Array, .double]

/-- The type a packed `nvp_type` names, if any. -/
def DataType.ofCode (c : UInt32) : Option DataType := DataType.all[c.toNat]?

/-! ## A decoded pair -/

/-- A pair as `nvs_decode_pairs` builds it: its `nvp_size` bytes, the offsets the pointers of a
string array were set to, and the embedded lists of an nvlist value. -/
inductive NvpDecoded where
  | mk (nvp : List UInt8) (strs : List ℕ) (embedded : List (List NvpDecoded))

namespace NvpDecoded

def nvp : NvpDecoded → List UInt8
  | mk nvp _ _ => nvp

def strs : NvpDecoded → List ℕ
  | mk _ strs _ => strs

def embedded : NvpDecoded → List (List NvpDecoded)
  | mk _ _ embedded => embedded

end NvpDecoded

/-- The header fields of a packed pair: `nvp_name_sz`, `nvp_value_elem` (as the `uint_t` its
users take) and `nvp_type`. -/
def nvpNameSz (nvp : List UInt8) : Int16 := (le16 nvp 4).toInt16
def nvpNelem (nvp : List UInt8) : UInt32 := le32 nvp 8
def nvpType (nvp : List UInt8) : UInt32 := le32 nvp 12

/-- Why a decode stops: the decoder returns an error; it reads a decoded pair at an offset
outside its `nvp_size` bytes; or the model runs out of fuel. -/
inductive DecodeFault where
  | errno (e : ℤ)
  | readPast (off : ℕ)
  | fuel
  deriving DecidableEq, Repr

/-- An error of a callee that the caller turns into `EFAULT`. -/
def DecodeFault.toEfault : DecodeFault → DecodeFault
  | .errno _ => .errno efault
  | f => f

/-! ## Reads of a decoded pair -/

/-- `strlen` of the string at byte `o` of a pair: the bytes before the first NUL, or, when no NUL
follows inside the pair, the offset of the first byte read outside it. -/
def strlenAt (nvp : List UInt8) (o : ℕ) : Except ℕ ℕ :=
  match (nvp.drop o).findIdx? (· == 0) with
  | some n => .ok n
  | none => .error (max o nvp.length)

/-- A 32-bit load at byte `o` of a pair, or the offset of the first byte read outside it. -/
def ld32 (nvp : List UInt8) (o : ℕ) : Except ℕ UInt32 :=
  if o + 4 ≤ nvp.length then .ok (le32 nvp o) else .error (max o nvp.length)

/-! ## Validation -/

/-- `i_validate_type_nelem(type, nelem)`; the kernel has no `DATA_TYPE_DOUBLE`. -/
def iValidateTypeNelem : DataType → UInt32 → Bool
  | .boolean, nelem => nelem == 0
  | .booleanValue, nelem | .byte, nelem | .int8, nelem | .uint8, nelem | .int16, nelem
  | .uint16, nelem | .int32, nelem | .uint32, nelem | .int64, nelem | .uint64, nelem
  | .string, nelem | .hrtime, nelem | .nvlist, nelem => nelem == 1
  | .booleanArray, _ | .byteArray, _ | .int8Array, _ | .uint8Array, _ | .int16Array, _
  | .uint16Array, _ | .int32Array, _ | .uint32Array, _ | .int64Array, _ | .uint64Array, _
  | .stringArray, _ | .nvlistArray, _ => true
  | .unknown, _ | .double, _ => false

/-- The `uint64_t` size of a value of `nelem` elements that `i_get_value_size` computes without
reading it, with `none` for the types it reads or rejects. -/
def fixedValueSize (type : DataType) (nelem : ℕ) : Option ℕ :=
  match type with
  | .boolean => some 0
  | .booleanValue => some 4
  | .byte | .int8 | .uint8 => some 1
  | .int16 | .uint16 => some 2
  | .int32 | .uint32 => some 4
  | .int64 | .uint64 | .hrtime => some 8
  | .booleanArray => some (nelem * 4)
  | .byteArray | .int8Array | .uint8Array => some nelem
  | .int16Array | .uint16Array => some (nelem * 2)
  | .int32Array | .uint32Array => some (nelem * 4)
  | .int64Array | .uint64Array => some (nelem * 8)
  | .nvlist => some (nvAlign sizeofNvlist)
  | .nvlistArray => some (nelem * 8 + nelem * nvAlign sizeofNvlist)
  | .string | .stringArray | .unknown | .double => none

/-- `i_get_value_size(type, data, nelem)`, with `data` `NULL` or the value of a decoded pair: the
size of the value, `none` for `-1`, or a read outside the pair.  With `data` a string is measured
by `strlen` at `NVP_VALUE`, and a string array by `strlen` at each of its pointers. -/
def iGetValueSize (type : DataType) (data : Option NvpDecoded) (nelem : UInt32) :
    Except ℕ (Option ℕ) := do
  if !iValidateTypeNelem type nelem then return none
  let valueSz ← match type, data with
    | .string, none => pure 0
    | .string, some p => (· + 1) <$> strlenAt p.nvp (nvpValoff (nvpNameSz p.nvp).toInt.toNat)
    | .stringArray, none => pure (nelem.toNat * 8)
    | .stringArray, some p =>
      p.strs.foldlM (fun sz o => (sz + · + 1) <$> strlenAt p.nvp o) (nelem.toNat * 8)
    | type, _ => pure ((fixedValueSize type nelem.toNat).getD 0)
  return if valueSz > int32Max then none else some valueSz

/-- `i_validate_nvpair_name(nvp)`: a positive `nvp_name_sz` that fits, a NUL at its end, and no
NUL before it. -/
def iValidateNvpairName (nvp : List UInt8) : Except DecodeFault Unit := do
  let nameSz := nvpNameSz nvp
  if nameSz ≤ 0 ∨ nvp.length < nvpSizeCalc nameSz.toInt.toNat 0 then throw (.errno efault)
  if nvp.getD (sizeofNvpair + nameSz.toInt.toNat - 1) 0 ≠ 0 then throw (.errno efault)
  let n ← (strlenAt nvp sizeofNvpair).mapError .readPast
  if n = nameSz.toInt.toNat - 1 then pure () else throw (.errno efault)

/-- The loop of `i_validate_nvpair_value` over a boolean array: every `boolean_t` is `B_TRUE` or
`B_FALSE`. -/
def validateBooleans (nvp : List UInt8) : ℕ → ℕ → Except ℕ Bool
  | _, 0 => pure true
  | o, k + 1 => do
    let b ← ld32 nvp o
    if b ≠ 0 ∧ b ≠ 1 then return false
    validateBooleans nvp (o + 4) k

/-- `i_validate_nvpair_value(type, nelem, NVP_VALUE(nvp))`: the booleans are `B_TRUE` or
`B_FALSE`. -/
def iValidateNvpairValue (type : Option DataType) (nelem : UInt32) (nvp : List UInt8)
    (valoff : ℕ) : Except ℕ Bool :=
  match type with
  | some .booleanValue => do
    let b ← ld32 nvp valoff
    return b = 0 ∨ b = 1
  | some .booleanArray => validateBooleans nvp valoff nelem.toNat
  | _ => pure true

/-- `i_validate_nvpair(nvp)`: the name, the value, and a value size that `nvp_size` agrees
with. -/
def iValidateNvpair (p : NvpDecoded) : Except DecodeFault Unit := do
  iValidateNvpairName p.nvp
  let type := DataType.ofCode (nvpType p.nvp)
  let nelem := nvpNelem p.nvp
  let valoff := nvpValoff (nvpNameSz p.nvp).toInt.toNat
  let ok ← (iValidateNvpairValue type nelem p.nvp valoff).mapError .readPast
  if !ok then throw (.errno efault)
  let size2 ← match type with
    | none => pure none
    | some type => (iGetValueSize type (some p) nelem).mapError .readPast
  match size2 with
  | none => throw (.errno efault)
  | some size2 =>
    if (p.nvp.length : ℤ) - valoff ≠ nvAlign size2 then throw (.errno efault)

/-! ## The stream -/

/-- `nvs_native_nvpair` (decode): the `int32_t` size of the next pair at the cursor, which must
lie inside the stream. -/
def nvsNativeNvpair (s : List UInt8) (endOff cur : ℕ) : Except DecodeFault ℕ :=
  if cur + 4 > endOff then throw (.errno efault)
  else
    let decodeLen := (le32 s cur).toInt32
    if decodeLen < 0 ∨ decodeLen.toInt > (endOff : ℤ) - cur then throw (.errno efault)
    else pure decodeLen.toInt.toNat

/-- `nvpair_native_string_array` (decode): the `k` strings packed from byte `o`, each pointer set
to its string and the next string after its NUL. -/
def nvpairNativeStringArray (nvp : List UInt8) : ℕ → ℕ → Except ℕ (List ℕ)
  | _, 0 => pure []
  | o, k + 1 => do
    let n ← strlenAt nvp o
    let strs ← nvpairNativeStringArray nvp (o + n + 1) k
    return o :: strs

mutual

/-- `nvs_decode_pairs` from the cursor `cur` of the stream `s`, at recursion depth `depth`: the
pairs up to the four zero bytes that close the list, and the cursor after them. -/
def nvsDecodePairs (s : List UInt8) (endOff : ℕ) :
    ℕ → ℕ → ℕ → Except DecodeFault (List NvpDecoded × ℕ)
  | 0, _, _ => throw .fuel
  | fuel + 1, depth, cur => do
    let nvsize ← nvsNativeNvpair s endOff cur
    if nvsize = 0 then return ([], cur + 4)
    if nvsize < nvpSizeCalc 1 0 then throw (.errno efault)
    let (p, cur) ← nvsNativeNvpOp s endOff fuel depth cur nvsize
    iValidateNvpair p
    let (ps, cur) ← nvsDecodePairs s endOff fuel depth cur
    return (p :: ps, cur)
termination_by structural f => f

/-- `nvs_native_nvp_op` (decode): copy the `nvsize` bytes of the pair, check its name and that
`nvp_size` holds the value's fixed part, then decode the embedded lists or set the pointers of a
string array. -/
def nvsNativeNvpOp (s : List UInt8) (endOff : ℕ) :
    ℕ → ℕ → ℕ → ℕ → Except DecodeFault (NvpDecoded × ℕ)
  | 0, _, _, _ => throw .fuel
  | fuel + 1, depth, cur, nvsize => do
    -- `native_cp`
    if cur + nvsize > endOff then throw (.errno efault)
    let nvp := (s.drop cur).take nvsize
    let cur := cur + nvsize
    iValidateNvpairName nvp
    let nameSz := (nvpNameSz nvp).toInt.toNat
    let nelem := nvpNelem nvp
    let some type := DataType.ofCode (nvpType nvp) | throw (.errno efault)
    let some valueSz ← (iGetValueSize type none nelem).mapError .readPast
      | throw (.errno efault)
    if nvpSizeCalc nameSz valueSz > nvp.length then throw (.errno efault)
    let valoff := nvpValoff nameSz
    if type = .nvlist then
      let (l, cur) ← nvsEmbedded s endOff fuel depth nvp valoff cur
      return (.mk nvp [] [l], cur)
    else if type = .nvlistArray then
      let (ls, cur) ← nvsEmbeddedNvlArray s endOff fuel depth nvp
        (valoff + nelem.toNat * 8) nelem.toNat cur
      return (.mk nvp [] ls, cur)
    else if type = .stringArray then
      let strs ← (nvpairNativeStringArray nvp (valoff + nelem.toNat * 8) nelem.toNat).mapError
        .readPast
      return (.mk nvp strs [], cur)
    else return (.mk nvp [] [], cur)
termination_by structural f => f

/-- `nvs_embedded` (decode) of the packed `nvlist_t` at byte `o` of the pair: its version, the
recursion bound, then its pairs from the stream. -/
def nvsEmbedded (s : List UInt8) (endOff : ℕ) :
    ℕ → ℕ → List UInt8 → ℕ → ℕ → Except DecodeFault (List NvpDecoded × ℕ)
  | 0, _, _, _, _ => throw .fuel
  | fuel + 1, depth, nvp, o, cur => do
    let version ← (ld32 nvp o).mapError .readPast
    if version.toInt32 ≠ nvVersion then throw (.errno enotsup)
    if depth ≥ nvpairMaxRecursion then throw (.errno einval)
    nvsDecodePairs s endOff fuel (depth + 1) cur
termination_by structural f => f

/-- `nvs_embedded_nvl_array` (decode): the `k` packed lists from byte `o` of the pair, one after
another; a failure of one is `EFAULT`. -/
def nvsEmbeddedNvlArray (s : List UInt8) (endOff : ℕ) :
    ℕ → ℕ → List UInt8 → ℕ → ℕ → ℕ → Except DecodeFault (List (List NvpDecoded) × ℕ)
  | 0, _, _, _, _, _ => throw .fuel
  | _ + 1, _, _, _, 0, cur => return ([], cur)
  | fuel + 1, depth, nvp, o, k + 1, cur => do
    let (l, cur) ← (nvsEmbedded s endOff fuel depth nvp o cur).mapError DecodeFault.toEfault
    let (ls, cur) ← nvsEmbeddedNvlArray s endOff fuel depth nvp (o + sizeofNvlist) k cur
    return (l :: ls, cur)
termination_by structural f => f

end

/-- `nvs_native` (decode) of the bytes after the header: `nvl_version` and `nvl_nvflag`, then the
pairs; the result is the `nvl_nvflag` of the stream and its pairs. -/
def nvsNative (s : List UInt8) (fuel : ℕ) : Except DecodeFault (UInt32 × List NvpDecoded) := do
  if 4 > s.length then throw (.errno efault)
  if 8 > s.length then throw (.errno efault)
  let (ps, _) ← nvsDecodePairs s s.length fuel 0 8
  return (le32 s 4, ps)

/-- `nvlist_unpack(buf, buflen)`: the encoding and byte order from the `nvs_header_t`, then the
native decoder, or the XDR one, which is not modelled here and is given. -/
def nvlistUnpack (nvsXdr : List UInt8 → Except DecodeFault (UInt32 × List NvpDecoded))
    (buf : List UInt8) (fuel : ℕ) : Except DecodeFault (UInt32 × List NvpDecoded) :=
  if buf.length < 4 then throw (.errno einval)
  else if buf.getD 0 0 = nvEncodeNative then
    -- the native decoder takes only the host's (little-endian) byte order
    if buf.getD 1 0 ≠ 1 then throw (.errno enotsup) else nvsNative (buf.drop 4) fuel
  else if buf.getD 0 0 = nvEncodeXdr then nvsXdr (buf.drop 4)
  else throw (.errno enotsup)

/-! ## The header and the name -/

theorem le_nvAlign (x : ℕ) : x ≤ nvAlign x := by
  unfold nvAlign; omega

/-- `strlen` stops inside the pair when a NUL follows its start there. -/
theorem strlenAt_eq_ok_of_zero {nvp : List UInt8} {o k : ℕ} (hk : nvp[k]? = some 0) (hok : o ≤ k) :
    ∃ n, strlenAt nvp o = .ok n := by
  unfold strlenAt
  cases h : (nvp.drop o).findIdx? (· == 0) with
  | some n => exact ⟨n, rfl⟩
  | none =>
    rw [List.findIdx?_eq_none_iff] at h
    have hmem : (0 : UInt8) ∈ nvp.drop o := by
      rw [List.mem_iff_getElem?]
      exact ⟨k - o, by rw [List.getElem?_drop, Nat.add_sub_cancel' hok, hk]⟩
    simpa using h 0 hmem

theorem toInt_toNat_pos_of_not_le {x : Int16} (hx : ¬ x ≤ 0) : 0 < x.toInt.toNat := by
  rw [Int16.not_le, Int16.lt_iff_toInt_lt] at hx
  simp at hx
  omega

/-- **The name is read inside the pair**: `i_validate_nvpair_name` measures the name only once its
NUL is known to lie inside the pair, and it fails only with `EFAULT`. -/
theorem iValidateNvpairName_eq_error {nvp : List UInt8} {f : DecodeFault}
    (h : iValidateNvpairName nvp = .error f) : f = .errno efault := by
  unfold iValidateNvpairName at h
  dsimp only at h
  by_cases h1 : nvpNameSz nvp ≤ 0 ∨ nvp.length < nvpSizeCalc (nvpNameSz nvp).toInt.toNat 0
  · rw [if_pos h1] at h
    simpa using h.symm
  rw [if_neg h1] at h
  by_cases h2 : nvp.getD (sizeofNvpair + (nvpNameSz nvp).toInt.toNat - 1) 0 ≠ 0
  · rw [if_pos h2] at h
    simpa using h.symm
  rw [if_neg h2] at h
  rw [not_or, not_lt] at h1
  -- the NUL that ends the name lies inside the pair, so `strlen` stops there
  have hpos := toInt_toNat_pos_of_not_le h1.1
  have hlen : sizeofNvpair + (nvpNameSz nvp).toInt.toNat - 1 < nvp.length := by
    have := le_nvAlign (sizeofNvpair + (nvpNameSz nvp).toInt.toNat)
    simp only [nvpSizeCalc] at h1
    omega
  have hnul : nvp[sizeofNvpair + (nvpNameSz nvp).toInt.toNat - 1]? = some 0 := by
    rw [not_ne_iff, List.getD_eq_getElem?_getD, List.getElem?_eq_getElem hlen] at h2
    rw [List.getElem?_eq_getElem hlen]
    simpa using h2
  obtain ⟨n, hn⟩ := strlenAt_eq_ok_of_zero (o := sizeofNvpair) hnul (by omega)
  rw [hn, Except.mapError_ok_eq, Except.ok_bind_eq] at h
  split_ifs at h <;> simpa using h.symm

theorem nvsNativeNvpair_ne_fuel (s : List UInt8) (endOff cur : ℕ) :
    nvsNativeNvpair s endOff cur ≠ .error .fuel := by
  unfold nvsNativeNvpair
  dsimp only
  split_ifs <;> simp

/-- `i_validate_nvpair` fails with `EFAULT` or a read outside the pair, never for want of fuel. -/
theorem iValidateNvpair_ne_fuel (p : NvpDecoded) : iValidateNvpair p ≠ .error .fuel := by
  intro h
  simp only [iValidateNvpair] at h
  rcases Except.bind_eq_error_iff.mp h with h | ⟨⟨⟩, -, h⟩
  · simpa using iValidateNvpairName_eq_error h
  rcases Except.bind_eq_error_iff.mp h with h | ⟨ok, -, h⟩
  · simp [Except.mapError_eq_error_iff] at h
  by_cases hok : (!ok) = true
  · rw [if_pos hok] at h
    simp at h
  rw [if_neg hok] at h
  split at h
  · simp at h
  rcases Except.bind_eq_error_iff.mp h with h | ⟨size2, -, h⟩
  · simp [Except.mapError_eq_error_iff] at h
  cases size2 with
  | none => simp at h
  | some size2 =>
    simp only at h
    split_ifs at h <;> simp at h

/-- The size `nvs_native_nvpair` reads lies inside the stream. -/
theorem nvsNativeNvpair_ok {s : List UInt8} {endOff cur n : ℕ}
    (h : nvsNativeNvpair s endOff cur = .ok n) : cur + 4 ≤ endOff ∧ cur + n ≤ endOff := by
  unfold nvsNativeNvpair at h
  dsimp only at h
  split_ifs at h with h1 h2
  simp only [Except.pure_eq_ok, Except.ok.injEq] at h
  rw [not_or, Int32.not_lt, Int32.le_iff_toInt_le, not_lt] at h2
  have hn : n = (le32 s cur).toInt32.toInt.toNat := h.symm
  simp only [Int32.toInt_zero] at h2
  omega

/-! ## What a successful decode gives -/

/-- A decoded pair is well formed: it passes `i_validate_nvpair`, and so does every pair of its
embedded lists. -/
inductive NvpDecoded.WellFormed : NvpDecoded → Prop
  | mk {nvp strs embedded} : iValidateNvpair (.mk nvp strs embedded) = .ok () →
      (∀ l ∈ embedded, ∀ q ∈ l, WellFormed q) → WellFormed (.mk nvp strs embedded)

section Decode

variable (s : List UInt8) (endOff : ℕ)

/-- What each of the four decode functions gives when it succeeds with `fuel`: a cursor that
moved forward inside the stream, and well-formed pairs. -/
structure DecodeOk (fuel : ℕ) : Prop where
  pairs : ∀ depth cur ps cur', nvsDecodePairs s endOff fuel depth cur = .ok (ps, cur') →
    cur + 4 ≤ cur' ∧ cur' ≤ endOff ∧ ∀ p ∈ ps, p.WellFormed
  nvpOp : ∀ depth cur nvsize p cur', nvsNativeNvpOp s endOff fuel depth cur nvsize = .ok (p, cur') →
    cur + nvsize ≤ cur' ∧ cur' ≤ endOff ∧ ∀ l ∈ p.embedded, ∀ q ∈ l, q.WellFormed
  embedded : ∀ depth nvp o cur l cur', nvsEmbedded s endOff fuel depth nvp o cur = .ok (l, cur') →
    cur + 4 ≤ cur' ∧ cur' ≤ endOff ∧ ∀ q ∈ l, q.WellFormed
  nvlArray : ∀ depth nvp o k cur ls cur', cur ≤ endOff →
    nvsEmbeddedNvlArray s endOff fuel depth nvp o k cur = .ok (ls, cur') →
    cur ≤ cur' ∧ cur' ≤ endOff ∧ ∀ l ∈ ls, ∀ q ∈ l, q.WellFormed

variable {s endOff}

theorem decodeOk_pairs_succ {fuel : ℕ} (ih : DecodeOk s endOff fuel) (depth cur : ℕ)
    (ps : List NvpDecoded) (cur' : ℕ) (h : nvsDecodePairs s endOff (fuel + 1) depth cur = .ok (ps, cur')) :
    cur + 4 ≤ cur' ∧ cur' ≤ endOff ∧ ∀ p ∈ ps, p.WellFormed := by
  simp only [nvsDecodePairs] at h
  obtain ⟨nvsize, h1, h⟩ := Except.bind_eq_ok_iff.mp h
  have hsize := nvsNativeNvpair_ok h1
  split_ifs at h with h0 hsmall
  · -- the four zero bytes that close the list
    simp only [Except.pure_eq_ok, Except.ok.injEq, Prod.mk.injEq] at h
    obtain ⟨rfl, rfl⟩ := h
    exact ⟨le_refl _, hsize.1, by simp⟩
  · simp at h
  · obtain ⟨⟨p, c1⟩, hop, h⟩ := Except.bind_eq_ok_iff.mp h
    obtain ⟨⟨⟩, hval, h⟩ := Except.bind_eq_ok_iff.mp h
    obtain ⟨⟨ps', c2⟩, hrest, h⟩ := Except.bind_eq_ok_iff.mp h
    simp only [Except.pure_eq_ok, Except.ok.injEq, Prod.mk.injEq] at h
    obtain ⟨rfl, rfl⟩ := h
    obtain ⟨hc1, hc1e, hemb⟩ := ih.nvpOp depth cur nvsize p c1 hop
    obtain ⟨hc2, hc2e, hps'⟩ := ih.pairs depth c1 ps' c2 hrest
    have hp : p.WellFormed := by
      cases p
      exact .mk hval hemb
    refine ⟨by omega, hc2e, ?_⟩
    simpa [hp] using hps'

theorem decodeOk_nvpOp_succ {fuel : ℕ} (ih : DecodeOk s endOff fuel) (depth cur nvsize : ℕ)
    (p : NvpDecoded) (cur' : ℕ) (h : nvsNativeNvpOp s endOff (fuel + 1) depth cur nvsize = .ok (p, cur')) :
    cur + nvsize ≤ cur' ∧ cur' ≤ endOff ∧ ∀ l ∈ p.embedded, ∀ q ∈ l, q.WellFormed := by
  simp only [nvsNativeNvpOp] at h
  by_cases hend : cur + nvsize > endOff
  · rw [if_pos hend] at h
    simp at h
  rw [if_neg hend] at h
  obtain ⟨⟨⟩, -, h⟩ := Except.bind_eq_ok_iff.mp h
  generalize (s.drop cur).take nvsize = nvp at h
  cases htype : DataType.ofCode (nvpType nvp) with
  | none => simp [htype] at h
  | some type =>
    simp only [htype] at h
    obtain ⟨vs, -, h⟩ := Except.bind_eq_ok_iff.mp h
    cases vs with
    | none => simp at h
    | some valueSz =>
      simp only at h
      by_cases hfit : nvpSizeCalc (nvpNameSz nvp).toInt.toNat valueSz > nvp.length
      · rw [if_pos hfit] at h
        simp at h
      rw [if_neg hfit] at h
      split_ifs at h
      · -- an embedded list follows the pair in the stream
        obtain ⟨⟨l, c⟩, hemb, h⟩ := Except.bind_eq_ok_iff.mp h
        simp only [Except.pure_eq_ok, Except.ok.injEq, Prod.mk.injEq] at h
        obtain ⟨rfl, rfl⟩ := h
        obtain ⟨hc, hce, hl⟩ := ih.embedded _ _ _ _ _ _ hemb
        exact ⟨by omega, hce, by simpa [NvpDecoded.embedded] using hl⟩
      · -- so do the lists of an array
        obtain ⟨⟨ls, c⟩, harr, h⟩ := Except.bind_eq_ok_iff.mp h
        simp only [Except.pure_eq_ok, Except.ok.injEq, Prod.mk.injEq] at h
        obtain ⟨rfl, rfl⟩ := h
        obtain ⟨hc, hce, hls⟩ := ih.nvlArray _ _ _ _ _ _ _ (by omega) harr
        exact ⟨hc, hce, by simpa [NvpDecoded.embedded] using hls⟩
      · obtain ⟨strs, -, h⟩ := Except.bind_eq_ok_iff.mp h
        simp only [Except.pure_eq_ok, Except.ok.injEq, Prod.mk.injEq] at h
        obtain ⟨rfl, rfl⟩ := h
        exact ⟨le_refl _, by omega, by simp [NvpDecoded.embedded]⟩
      · simp only [Except.pure_eq_ok, Except.ok.injEq, Prod.mk.injEq] at h
        obtain ⟨rfl, rfl⟩ := h
        exact ⟨le_refl _, by omega, by simp [NvpDecoded.embedded]⟩

theorem decodeOk_embedded_succ {fuel : ℕ} (ih : DecodeOk s endOff fuel) (depth : ℕ)
    (nvp : List UInt8) (o cur : ℕ) (l : List NvpDecoded) (cur' : ℕ)
    (h : nvsEmbedded s endOff (fuel + 1) depth nvp o cur = .ok (l, cur')) :
    cur + 4 ≤ cur' ∧ cur' ≤ endOff ∧ ∀ q ∈ l, q.WellFormed := by
  simp only [nvsEmbedded] at h
  obtain ⟨v, -, h⟩ := Except.bind_eq_ok_iff.mp h
  by_cases hv : v.toInt32 ≠ nvVersion
  · rw [if_pos hv] at h
    simp at h
  rw [if_neg hv] at h
  by_cases hd : depth ≥ nvpairMaxRecursion
  · rw [if_pos hd] at h
    simp at h
  rw [if_neg hd] at h
  exact ih.pairs _ _ _ _ (by simpa using h)

theorem decodeOk_nvlArray_succ {fuel : ℕ} (ih : DecodeOk s endOff fuel) (depth : ℕ)
    (nvp : List UInt8) (o k cur : ℕ) (ls : List (List NvpDecoded)) (cur' : ℕ) (hcur : cur ≤ endOff)
    (h : nvsEmbeddedNvlArray s endOff (fuel + 1) depth nvp o k cur = .ok (ls, cur')) :
    cur ≤ cur' ∧ cur' ≤ endOff ∧ ∀ l ∈ ls, ∀ q ∈ l, q.WellFormed := by
  cases k with
  | zero =>
    simp only [nvsEmbeddedNvlArray, Except.pure_eq_ok, Except.ok.injEq, Prod.mk.injEq] at h
    obtain ⟨rfl, rfl⟩ := h
    exact ⟨le_refl _, hcur, by simp⟩
  | succ k =>
    simp only [nvsEmbeddedNvlArray] at h
    obtain ⟨⟨l, c⟩, hemb, h⟩ := Except.bind_eq_ok_iff.mp h
    obtain ⟨⟨ls', c'⟩, harr, h⟩ := Except.bind_eq_ok_iff.mp h
    simp only [Except.pure_eq_ok, Except.ok.injEq, Prod.mk.injEq] at h
    obtain ⟨rfl, rfl⟩ := h
    obtain ⟨hc, hce, hl⟩ := ih.embedded _ _ _ _ _ _ (Except.mapError_eq_ok_iff.mp hemb)
    obtain ⟨hc', hce', hls⟩ := ih.nvlArray _ _ _ _ _ _ _ hce harr
    refine ⟨by omega, hce', ?_⟩
    simpa using ⟨hl, hls⟩

/-- Induction on the fuel, one step for each function of the mutual block. -/
theorem decodeOk (fuel : ℕ) : DecodeOk s endOff fuel := by
  induction fuel with
  | zero =>
    refine ⟨?_, ?_, ?_, ?_⟩ <;> intros <;>
      simp_all [nvsDecodePairs, nvsNativeNvpOp, nvsEmbedded, nvsEmbeddedNvlArray]
  | succ fuel ih =>
    exact ⟨decodeOk_pairs_succ ih, decodeOk_nvpOp_succ ih, decodeOk_embedded_succ ih,
      decodeOk_nvlArray_succ ih⟩

end Decode

/-- **A successful decode gives well-formed pairs**: every pair `nvs_decode_pairs` returns passed
`i_validate_nvpair`, so did every pair of its embedded lists, and the cursor moved past the four
bytes that close the list without leaving the stream. -/
theorem nvsDecodePairs_ok {s : List UInt8} {endOff fuel depth cur : ℕ} {ps : List NvpDecoded}
    {cur' : ℕ} (h : nvsDecodePairs s endOff fuel depth cur = .ok (ps, cur')) :
    cur + 4 ≤ cur' ∧ cur' ≤ endOff ∧ ∀ p ∈ ps, p.WellFormed :=
  (decodeOk fuel).pairs depth cur ps cur' h

/-- The pairs of a native stream that decodes are well formed. -/
theorem nvsNative_ok {s : List UInt8} {fuel : ℕ} {nvflag : UInt32} {ps : List NvpDecoded}
    (h : nvsNative s fuel = .ok (nvflag, ps)) : ∀ p ∈ ps, p.WellFormed := by
  simp only [nvsNative] at h
  by_cases h4 : 4 > s.length
  · rw [if_pos h4] at h
    simp at h
  rw [if_neg h4] at h
  by_cases h8 : 8 > s.length
  · rw [if_pos h8] at h
    simp at h
  rw [if_neg h8] at h
  obtain ⟨⟨ps', c⟩, hdec, h⟩ := Except.bind_eq_ok_iff.mp h
  simp only [Except.pure_eq_ok, Except.ok.injEq, Prod.mk.injEq] at h
  obtain ⟨-, rfl⟩ := h
  exact (nvsDecodePairs_ok hdec).2.2

/-! ## Termination -/

section Total

variable (s : List UInt8) (endOff : ℕ)

/-- Each of the four decode functions has enough fuel when it has a few more steps than there are
bytes left in the stream: every pair takes at least 24 of them and every list its 4 closing
bytes. -/
structure DecodeTotal (fuel : ℕ) : Prop where
  pairs : ∀ depth cur, endOff - cur + 1 ≤ fuel →
    nvsDecodePairs s endOff fuel depth cur ≠ .error .fuel
  nvpOp : ∀ depth cur nvsize, endOff - (cur + nvsize) + 4 ≤ fuel →
    nvsNativeNvpOp s endOff fuel depth cur nvsize ≠ .error .fuel
  embedded : ∀ depth nvp o cur, endOff - cur + 2 ≤ fuel →
    nvsEmbedded s endOff fuel depth nvp o cur ≠ .error .fuel
  nvlArray : ∀ depth nvp o k cur, endOff - cur + 3 ≤ fuel →
    nvsEmbeddedNvlArray s endOff fuel depth nvp o k cur ≠ .error .fuel

variable {s endOff}

theorem decodeTotal_pairs_succ {fuel : ℕ} (ih : DecodeTotal s endOff fuel) (depth cur : ℕ)
    (hfuel : endOff - cur + 1 ≤ fuel + 1) :
    nvsDecodePairs s endOff (fuel + 1) depth cur ≠ .error .fuel := by
  intro h
  simp only [nvsDecodePairs] at h
  rcases Except.bind_eq_error_iff.mp h with h | ⟨nvsize, h1, h⟩
  · exact nvsNativeNvpair_ne_fuel s endOff cur h
  have hsize := nvsNativeNvpair_ok h1
  split_ifs at h with h0 hsmall
  · simp at h
  · simp at h
  have h24 : nvpSizeCalc 1 0 = 24 := rfl
  rcases Except.bind_eq_error_iff.mp h with h | ⟨⟨p, c1⟩, hop, h⟩
  · exact ih.nvpOp depth cur nvsize (by omega) h
  have hc1 := ((decodeOk fuel).nvpOp _ _ _ _ _ hop).1
  rcases Except.bind_eq_error_iff.mp h with h | ⟨⟨⟩, -, h⟩
  · exact iValidateNvpair_ne_fuel p h
  rcases Except.bind_eq_error_iff.mp h with h | ⟨⟨ps, c2⟩, -, h⟩
  · exact ih.pairs depth c1 (by omega) h
  simp at h

theorem decodeTotal_nvpOp_succ {fuel : ℕ} (ih : DecodeTotal s endOff fuel) (depth cur nvsize : ℕ)
    (hfuel : endOff - (cur + nvsize) + 4 ≤ fuel + 1) :
    nvsNativeNvpOp s endOff (fuel + 1) depth cur nvsize ≠ .error .fuel := by
  intro h
  simp only [nvsNativeNvpOp] at h
  by_cases hend : cur + nvsize > endOff
  · rw [if_pos hend] at h
    simp at h
  rw [if_neg hend] at h
  rcases Except.bind_eq_error_iff.mp h with h | ⟨⟨⟩, -, h⟩
  · simpa using iValidateNvpairName_eq_error h
  generalize (s.drop cur).take nvsize = nvp at h
  cases htype : DataType.ofCode (nvpType nvp) with
  | none => simp [htype] at h
  | some type =>
    simp only [htype] at h
    rcases Except.bind_eq_error_iff.mp h with h | ⟨vs, -, h⟩
    · simp [Except.mapError_eq_error_iff] at h
    cases vs with
    | none => simp at h
    | some valueSz =>
      simp only at h
      by_cases hfit : nvpSizeCalc (nvpNameSz nvp).toInt.toNat valueSz > nvp.length
      · rw [if_pos hfit] at h
        simp at h
      rw [if_neg hfit] at h
      split_ifs at h
      · rcases Except.bind_eq_error_iff.mp h with h | ⟨_, -, h⟩
        · exact ih.embedded _ _ _ _ (by omega) h
        · simp at h
      · rcases Except.bind_eq_error_iff.mp h with h | ⟨_, -, h⟩
        · exact ih.nvlArray _ _ _ _ _ (by omega) h
        · simp at h
      · rcases Except.bind_eq_error_iff.mp h with h | ⟨_, -, h⟩
        · simp [Except.mapError_eq_error_iff] at h
        · simp at h
      · simp at h

theorem decodeTotal_embedded_succ {fuel : ℕ} (ih : DecodeTotal s endOff fuel) (depth : ℕ)
    (nvp : List UInt8) (o cur : ℕ) (hfuel : endOff - cur + 2 ≤ fuel + 1) :
    nvsEmbedded s endOff (fuel + 1) depth nvp o cur ≠ .error .fuel := by
  intro h
  simp only [nvsEmbedded] at h
  rcases Except.bind_eq_error_iff.mp h with h | ⟨v, -, h⟩
  · simp [Except.mapError_eq_error_iff] at h
  by_cases hv : v.toInt32 ≠ nvVersion
  · rw [if_pos hv] at h
    simp at h
  rw [if_neg hv] at h
  by_cases hd : depth ≥ nvpairMaxRecursion
  · rw [if_pos hd] at h
    simp at h
  rw [if_neg hd] at h
  exact ih.pairs (depth + 1) cur (by omega) h

theorem decodeTotal_nvlArray_succ {fuel : ℕ} (ih : DecodeTotal s endOff fuel) (depth : ℕ)
    (nvp : List UInt8) (o k cur : ℕ) (hfuel : endOff - cur + 3 ≤ fuel + 1) :
    nvsEmbeddedNvlArray s endOff (fuel + 1) depth nvp o k cur ≠ .error .fuel := by
  intro h
  cases k with
  | zero => simp [nvsEmbeddedNvlArray] at h
  | succ k =>
    simp only [nvsEmbeddedNvlArray] at h
    rcases Except.bind_eq_error_iff.mp h with h | ⟨⟨l, c⟩, hemb, h⟩
    · obtain ⟨f, hf, hfe⟩ := Except.mapError_eq_error_iff.mp h
      cases f <;> simp [DecodeFault.toEfault] at hfe
      exact ih.embedded depth nvp o cur (by omega) hf
    -- the list decoded took at least its four closing bytes
    have hc := (decodeOk fuel).embedded _ _ _ _ _ _ (Except.mapError_eq_ok_iff.mp hemb)
    rcases Except.bind_eq_error_iff.mp h with h | ⟨_, -, h⟩
    · exact ih.nvlArray depth nvp (o + sizeofNvlist) k c (by omega) h
    · simp at h

/-- Induction on the fuel, one step for each function of the mutual block. -/
theorem decodeTotal (fuel : ℕ) : DecodeTotal s endOff fuel := by
  induction fuel with
  | zero => exact ⟨by omega, by omega, by omega, by omega⟩
  | succ fuel ih =>
    exact ⟨decodeTotal_pairs_succ ih, decodeTotal_nvpOp_succ ih, decodeTotal_embedded_succ ih,
      decodeTotal_nvlArray_succ ih⟩

end Total

/-- **The decoder terminates**: from any cursor, one step more than the bytes left in the stream
is enough fuel for `nvs_decode_pairs` and everything it calls. -/
theorem nvsDecodePairs_ne_fuel {s : List UInt8} {endOff fuel : ℕ} (depth cur : ℕ)
    (h : endOff - cur + 1 ≤ fuel) : nvsDecodePairs s endOff fuel depth cur ≠ .error .fuel :=
  (decodeTotal fuel).pairs depth cur h

/-- The native decoder of a stream of `n` bytes needs no more than `n` steps. -/
theorem nvsNative_ne_fuel {s : List UInt8} {fuel : ℕ} (hfuel : s.length ≤ fuel) :
    nvsNative s fuel ≠ .error .fuel := by
  simp only [nvsNative]
  intro h
  by_cases h4 : 4 > s.length
  · rw [if_pos h4] at h
    simp at h
  rw [if_neg h4] at h
  by_cases h8 : 8 > s.length
  · rw [if_pos h8] at h
    simp at h
  rw [if_neg h8] at h
  rcases Except.bind_eq_error_iff.mp h with h | ⟨_, -, h⟩
  · exact nvsDecodePairs_ne_fuel 0 8 (by omega) h
  · simp at h

/-- **`nvlist_unpack` of a native stream ends, and what it returns is validated**: with a step
for each byte of the buffer the decoder never runs out of steps, and every pair of the list it
returns, with every pair of its embedded lists, passes `i_validate_nvpair`. -/
theorem nvlistUnpack_native (nvsXdr : List UInt8 → Except DecodeFault (UInt32 × List NvpDecoded))
    {buf : List UInt8} (hnative : buf.getD 0 0 = nvEncodeNative) :
    nvlistUnpack nvsXdr buf buf.length ≠ .error .fuel ∧
      ∀ nvflag ps, nvlistUnpack nvsXdr buf buf.length = .ok (nvflag, ps) →
        ∀ p ∈ ps, p.WellFormed := by
  unfold nvlistUnpack
  by_cases h4 : buf.length < 4
  · simp only [if_pos h4]
    exact ⟨by simp [throw, throwThe, MonadExceptOf.throw], fun _ _ h => by cases h⟩
  rw [if_neg h4, if_pos hnative]
  by_cases h1 : buf.getD 1 0 ≠ 1
  · simp only [if_pos h1]
    exact ⟨by simp [throw, throwThe, MonadExceptOf.throw], fun _ _ h => by cases h⟩
  rw [if_neg h1]
  exact ⟨nvsNative_ne_fuel (by simp), fun _ _ h => nvsNative_ok h⟩

/-- The empty list with `NV_UNIQUE_NAME`, packed natively: the header, `nvl_version`,
`nvl_nvflag` and the four zero bytes that end the pairs. -/
def emptyNativeStream : List UInt8 := [0, 1, 0, 0, 0, 0, 0, 0, 1, 0, 0, 0, 0, 0, 0, 0]

theorem nvlistUnpack_native_empty :
    emptyNativeStream.getD 0 0 = nvEncodeNative ∧
      nvlistUnpack (fun _ => .error (.errno einval)) emptyNativeStream emptyNativeStream.length ≠
          .error .fuel ∧
      ∀ nvflag ps, nvlistUnpack (fun _ => .error (.errno einval)) emptyNativeStream
          emptyNativeStream.length = .ok (nvflag, ps) → ∀ p ∈ ps, p.WellFormed :=
  ⟨rfl, nvlistUnpack_native _ rfl⟩

/-- It unpacks to no pairs and the flag `1`. -/
example : nvlistUnpack (fun _ => .error (.errno einval)) emptyNativeStream
    emptyNativeStream.length = .ok (1, []) := rfl

/-! ## Strings -/

/-- A native stream of one string pair `"a"` of 32 bytes whose value, eight bytes of `'a'`, has no
NUL: the pair passes every check of `nvs_native_nvp_op`, and `i_validate_nvpair` then measures the
value with `strlen`, which reads byte 32 of the 32-byte pair, before any check of the value's
size. -/
theorem nvlistUnpack_string_reads_past
    (nvsXdr : List UInt8 → Except DecodeFault (UInt32 × List NvpDecoded)) :
    let nvp : List UInt8 := [32, 0, 0, 0, 2, 0, 0, 0, 1, 0, 0, 0, 9, 0, 0, 0,
      0x61, 0, 0, 0, 0, 0, 0, 0, 0x61, 0x61, 0x61, 0x61, 0x61, 0x61, 0x61, 0x61]
    let buf : List UInt8 := [0, 1, 0, 0] ++ [0, 0, 0, 0, 1, 0, 0, 0] ++ nvp ++ [0, 0, 0, 0]
    nvsNativeNvpOp (buf.drop 4) 44 buf.length 0 8 32 = .ok (.mk nvp [] [], 40) ∧
      iValidateNvpair (.mk nvp [] []) = .error (.readPast 32) ∧
      nvlistUnpack nvsXdr buf buf.length = .error (.readPast 32) :=
  ⟨rfl, rfl, rfl⟩

end Zfs
