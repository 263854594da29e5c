import Zfs.Nvpair.Native

/-!
# Nvpair/Lookup — `nvlist_lookup_nvpair_ei_sep`, the embedded-path lookup

A name such as `a.d[3].e` walks down embedded lists: each component is scanned for the next `sep`
and the next `[`, an index is read with `ddi_strtol` (the kernel build), trailing blanks are
trimmed, and the first pair of that name decides what comes next: the end of the path, the list
embedded in a `DATA_TYPE_NVLIST` pair, or list `idx` of a `DATA_TYPE_NVLIST_ARRAY` pair, after the
test `(n < 0) || (idx >= n)`.  Lists are modelled as trees of their pairs; a read `nva[idx]` outside
the array is an outcome of its own.

* `nvLookupPass_next_length` — a pass that goes on leaves a strictly shorter rest of the name, so
  `nvlistLookupNvpairEiSep` runs the loop to its end (`nvLookupLoop_fuel`);
* **`nvlistLookupNvpairEiSep_path`** — a path of plain names separated by `sep`, each naming an
  embedded list and the last any pair, is found;
* `nvlistLookupNvpairEiSep_outOfBounds_neg` — the bound test catches every index at or past the end
  of the array, and only those;
* `nvlistLookupNvpairEiSep_negative_index` — `a[-1].b` reads `nva[-1]`, and so does an index that
  `ddi_strtoul` wraps past `LONG_MAX`, while `a[0].b` is refused: `ddi_strtoul` takes a leading `0`
  for an octal prefix it never accepts.
-/

namespace Zfs

/-! ## Nvlists as the lookup walks them -/

mutual
/-- An nvlist: whether `nvl_nvflag` has `NV_UNIQUE_NAME`, and its pairs in order. -/
inductive NvTree where
  | mk (uniqueName : Bool) (pairs : List NvTreePair)
/-- A pair: `nvpair_name` as bytes without the NUL, and its value. -/
inductive NvTreePair where
  | mk (name : List UInt8) (value : NvTreeValue)
/-- `EMBEDDED_NVL` of a `DATA_TYPE_NVLIST` pair, the lists of a `DATA_TYPE_NVLIST_ARRAY` pair, or
the type of any other pair. -/
inductive NvTreeValue where
  | nvlist (embedded : NvTree)
  | nvlistArray (nva : List NvTree)
  | other (type : DataType) (h : type ≠ .nvlist ∧ type ≠ .nvlistArray)
end

def NvTree.uniqueName : NvTree → Bool
  | mk uniqueName _ => uniqueName

def NvTree.pairs : NvTree → List NvTreePair
  | mk _ pairs => pairs

def NvTreePair.name : NvTreePair → List UInt8
  | mk name _ => name

def NvTreePair.value : NvTreePair → NvTreeValue
  | mk _ value => value

/-- `nvpair_type(nvp)`. -/
def NvTreeValue.type : NvTreeValue → DataType
  | nvlist _ => .nvlist
  | nvlistArray _ => .nvlistArray
  | other type _ => type

/-- `nvpair_type_is_array(nvp)`. -/
def nvpairTypeIsArray (type : DataType) : Bool :=
  [DataType.byteArray, .int8Array, .uint8Array, .int16Array, .uint16Array, .int32Array,
    .uint32Array, .int64Array, .uint64Array, .booleanArray, .stringArray, .nvlistArray].contains type

/-! ## Scanning: `skip_whitespace`, `strchr`, `ddi_strtol` -/

/-- `' '` or `'\t'`, what `skip_whitespace` skips. -/
def isBlank (c : UInt8) : Bool := c == 0x20 || c == 0x09

/-- `skip_whitespace(p)`. -/
def skipWhitespace (p : List UInt8) : List UInt8 := p.dropWhile isBlank

/-- `strchr(s, c)` of a byte other than NUL: the string from the first `c` on. -/
def strchr (s : List UInt8) (c : UInt8) : Option (List UInt8) :=
  match s with
  | [] => none
  | a :: t => if a = c then some (a :: t) else strchr t c

/-- `isdigit`, `isalpha` and `tolower` of the C locale. -/
def isDigit (c : UInt8) : Bool := 0x30 ≤ c && c ≤ 0x39
def isAlpha (c : UInt8) : Bool := (0x41 ≤ c && c ≤ 0x5a) || (0x61 ≤ c && c ≤ 0x7a)
def toLower (c : UInt8) : UInt8 := if 0x41 ≤ c && c ≤ 0x5a then c + 0x20 else c

/-- `isxdigit`. -/
def isXdigit (c : UInt8) : Bool := isDigit c || (0x61 ≤ toLower c && toLower c ≤ 0x66)

/-- `ERANGE`. -/
def erange : ℤ := 34

/-- The `digit` of a byte in the loop of `ddi_strtoul`: a decimal digit, or a letter from 10 on. -/
def strtoDigit (c : UInt8) : Option ℕ :=
  if isDigit c then some (c.toNat - 0x30)
  else if isAlpha c then some ((toLower c).toNat - 0x61 + 10)
  else none

/-- The digit loop of `ddi_strtoul`, from `value` on: the value and `endptr` as the rest of the
string.  The overflow test only compares with the previous value. -/
def ddiStrtoulLoop (base : ℕ) : List UInt8 → UInt64 → Except ℤ (UInt64 × List UInt8)
  | [], value => .ok (value, [])
  | c :: s, value =>
    match strtoDigit c with
    | none => .ok (value, c :: s)
    | some digit =>
      if digit ≥ base then .ok (value, c :: s)
      else
        let lastValue := value
        let value := value * base.toUInt64 + digit.toUInt64
        if lastValue > value then .error erange else ddiStrtoulLoop base s value

/-- `ddi_strtoul(str, &endptr, base, &result)`.  With base `0` a leading `0` must start `0x` and a
hex digit: the octal test compares `str[1]` with the number `8`, not with `'8'`. -/
def ddiStrtoul (str : List UInt8) (base : ℕ) : Except ℤ (UInt64 × List UInt8) :=
  if str = [] then .error einval
  else if base ≠ 0 then ddiStrtoulLoop base str 0
  else if str.head? = some 0x30 then
    if toLower (str.getD 1 0) = 0x78 ∧ isXdigit (str.getD 2 0) then ddiStrtoulLoop 16 (str.drop 2) 0
    else if 0x30 ≤ (str.getD 1 0).toNat ∧ (str.getD 1 0).toNat < 8 then
      ddiStrtoulLoop 8 (str.drop 1) 0
    else .error einval
  else ddiStrtoulLoop 10 str 0

/-- `ddi_strtol(str, &endptr, base, &result)`: the value `ddi_strtoul` read, as a `long`, negated
after a `-` (with `endptr` back at `str` when no digit followed). -/
def ddiStrtol (str : List UInt8) (base : ℕ) : Except ℤ (Int64 × List UInt8) :=
  match str with
  | c :: s =>
    if c = 0x2d then do
      let (value, endptr) ← ddiStrtoul s base
      if endptr.length = s.length then pure (value.toInt64, str)
      else pure (-value.toInt64, endptr)
    else do
      let (value, endptr) ← ddiStrtoul str base
      pure (value.toInt64, endptr)
  | [] => do
    let (value, endptr) ← ddiStrtoul [] base
    pure (value.toInt64, endptr)

/-! ## One component -/

/-- A component as the scan leaves it: `n`, the length of its name with trailing blanks trimmed,
the index if it has one, and `sepp`, the rest of the name (`NULL` once only blanks are left). -/
structure NvComponent where
  n : ℕ
  idx : Option Int64
  sepp : Option (List UInt8)

/-- `[ index ]`, from the byte after the `[`: the index and what follows the `]` and one `sep`
after it; `none` where the code goes to `fail`. -/
def nvLookupIndex (sep : UInt8) (idxp : List UInt8) : Option (Int64 × List UInt8) :=
  let idxp := skipWhitespace idxp
  match ddiStrtol idxp 0 with
  | .error _ => none
  | .ok (idx, idxep) =>
    if idxep.length = idxp.length then none
    else
      match skipWhitespace idxep with
      | c :: sepp =>
        if c ≠ 0x5d then none
        else
          let sepp := skipWhitespace sepp
          -- "a[1].b" and "a[1]b" both go on with "b"
          some (idx, if sep ≠ 0 ∧ sepp.head? = some sep then sepp.tail else sepp)
      | [] => none

/-- The `for (n--; ...; n--); n++` loop: `n` less the blanks that end the first `n` bytes. -/
def trimTrailing (np : List UInt8) (n : ℕ) : ℕ :=
  n - ((np.take n).reverse.takeWhile isBlank).length

/-- Where a component ends, from its start `np` past its blanks: `n` before the trailing blanks are
trimmed, the index if it has one, and the rest of the name; `none` where the code goes to `fail`.
A pointer comparison of two suffixes of `np` is one of their lengths, the other way round. -/
def nvLookupSplit (sep : UInt8) (np : List UInt8) :
    Option (ℕ × Option Int64 × Option (List UInt8)) :=
  let sepp := if sep ≠ 0 then strchr np sep else none
  -- a `sep` before the `[` ends the component first
  let idxp := (strchr np 0x5b).filter fun i => !sepp.any fun s => s.length > i.length
  match idxp, sepp with
  | some i, _ => (nvLookupIndex sep i.tail).map fun (idx, s) => (np.length - i.length, some idx, some s)
  | none, some s => some (np.length - s.length, none, some s.tail)
  | none, none => some (np.length, none, none)

/-- The scanning half of a pass, up to the test that sets `sepp` to `NULL`. -/
def nvLookupScan (sep : UInt8) (np : List UInt8) : Option NvComponent :=
  (nvLookupSplit sep np).bind fun (n, idx, sepp) =>
    if n = 0 then none
    else some ⟨trimTrailing np n, idx,
      sepp.bind fun s => if skipWhitespace s = [] then none else some (skipWhitespace s)⟩

/-- The outcome of the lookup: `0` with the pair and `*ip`, `EINVAL`, `ENOTSUP`, or a read
`nva[idx]` outside an array of `nelem` lists. -/
inductive NvLookupResult where
  | found (nvp : NvTreePair) (ip : ℤ)
  | einval
  | enotsup
  | outOfBounds (idx : Int64) (nelem : ℕ)

/-- How a pass of the loop ends: with a result, or with the list, the rest of the name and `idx`
for the next pass. -/
inductive NvLookupStep where
  | done (r : NvLookupResult)
  | next (nvl : NvTree) (np : List UInt8) (idx : Int64)

/-- The list a pair leads to when more components follow: `EMBEDDED_NVL`, or list `idx` of an
array once the bound test passes; the result where the walk stops instead. -/
def nvLookupDescend (value : NvTreeValue) (idx : Int64) : Except NvLookupResult NvTree :=
  match value with
  | .nvlist l => .ok l
  | .nvlistArray nva =>
    -- `nvpair_value_nvlist_array(nvp, &nva, (uint_t *)&n)` stores a `uint_t` in an `int`
    let n := nva.length.toUInt32.toInt32.toInt
    if n < 0 ∨ idx.toInt ≥ n then .error .einval
    else if idx.toInt < 0 then .error (.outOfBounds idx nva.length)
    else
      match nva[idx.toInt.toNat]? with
      | some l => .ok l
      | none => .error (.outOfBounds idx nva.length)
  | .other _ _ => .error .einval

/-- The search half of a pass: the first pair named `name`, and what its type makes of the rest
`sepp` of the name. -/
def nvLookupMatch (nvl : NvTree) (name : List UInt8) (indexed : Bool) (idx : Int64)
    (sepp : Option (List UInt8)) : NvLookupStep :=
  match nvl.pairs.find? (fun nvp => nvp.name == name) with
  | none => .done .einval
  | some nvp =>
    if indexed ∧ !nvpairTypeIsArray nvp.value.type then .done .einval
    else
      match sepp with
      | none => .done (.found nvp (if indexed then idx.toInt32.toInt else -1))
      | some rest =>
        match nvLookupDescend nvp.value idx with
        | .ok l => .next l rest idx
        | .error r => .done r

/-- One pass of the loop over the components of the name. -/
def nvLookupPass (sep : UInt8) (nvl : NvTree) (np : List UInt8) (idx : Int64) : NvLookupStep :=
  if !nvl.uniqueName then .done .enotsup
  else
    let np := skipWhitespace np
    if np = [] then .done .einval
    else
      match nvLookupScan sep np with
      | none => .done .einval
      | some c => nvLookupMatch nvl (np.take c.n) c.idx.isSome (c.idx.getD idx) c.sepp

/-- The loop `for (np = name; np && *np; np = sepp)`, a pass for each unit of fuel. -/
def nvLookupLoop (sep : UInt8) : ℕ → NvTree → List UInt8 → Int64 → NvLookupResult
  | 0, _, _, _ => .einval
  | fuel + 1, nvl, np, idx =>
    if np = [] then .einval
    else
      match nvLookupPass sep nvl np idx with
      | .done r => r
      | .next nvl np idx => nvLookupLoop sep fuel nvl np idx

/-- `nvlist_lookup_nvpair_ei_sep(nvl, name, sep, &ret, &ip, NULL)` of the kernel build: a pass for
each byte of the name is more than enough (`nvLookupLoop_fuel`). -/
def nvlistLookupNvpairEiSep (nvl : NvTree) (name : List UInt8) (sep : UInt8) : NvLookupResult :=
  nvLookupLoop sep name.length nvl name 0

/-! ## The loop runs to its end

Every cursor the scan moves is a suffix of the component it started from, and the next component
starts past a `sep` or a `[`: a pass that goes on leaves less of the name. -/

theorem strchr_suffix {s t : List UInt8} {c : UInt8} (h : strchr s c = some t) :
    t ≠ [] ∧ t <:+ s := by
  induction s with
  | nil => simp [strchr] at h
  | cons a s ih =>
    unfold strchr at h
    split_ifs at h with hac
    · cases h
      exact ⟨List.cons_ne_nil a s, List.suffix_refl _⟩
    · exact ⟨(ih h).1, (ih h).2.trans (List.suffix_cons a s)⟩

theorem skipWhitespace_suffix (p : List UInt8) : skipWhitespace p <:+ p :=
  List.dropWhile_suffix isBlank

theorem ddiStrtoulLoop_suffix {base : ℕ} {s e : List UInt8} {v v' : UInt64}
    (h : ddiStrtoulLoop base s v = .ok (v', e)) : e <:+ s := by
  induction s generalizing v with
  | nil =>
    simp only [ddiStrtoulLoop, Except.ok.injEq, Prod.mk.injEq] at h
    rw [← h.2]
  | cons c s ih =>
    simp only [ddiStrtoulLoop] at h
    split at h
    · cases h
      exact List.suffix_refl _
    · split_ifs at h
      · cases h
        exact List.suffix_refl _
      · exact (ih h).trans (List.suffix_cons c s)

theorem ddiStrtoul_suffix {str e : List UInt8} {base : ℕ} {v : UInt64}
    (h : ddiStrtoul str base = .ok (v, e)) : e <:+ str := by
  unfold ddiStrtoul at h
  split_ifs at h
  · exact ddiStrtoulLoop_suffix h
  · exact (ddiStrtoulLoop_suffix h).trans (List.drop_suffix 2 str)
  · exact (ddiStrtoulLoop_suffix h).trans (List.drop_suffix 1 str)
  · exact ddiStrtoulLoop_suffix h

theorem ddiStrtol_suffix {str e : List UInt8} {base : ℕ} {v : Int64}
    (h : ddiStrtol str base = .ok (v, e)) : e <:+ str := by
  unfold ddiStrtol at h
  split at h
  · rename_i c s
    split_ifs at h
    · cases hu : ddiStrtoul s base with
      | error _ => simp [hu] at h
      | ok r =>
        obtain ⟨value, endptr⟩ := r
        simp only [hu, bind, Except.bind] at h
        split_ifs at h
        · cases h
          exact List.suffix_refl _
        · cases h
          exact (ddiStrtoul_suffix hu).trans (List.suffix_cons c s)
    · cases hu : ddiStrtoul (c :: s) base with
      | error _ => simp [hu] at h
      | ok r =>
        simp only [hu, bind, Except.bind, pure, Except.pure, Except.ok.injEq, Prod.mk.injEq] at h
        rw [← h.2]
        exact ddiStrtoul_suffix hu
  · simp [ddiStrtoul, bind, Except.bind] at h

theorem nvLookupIndex_suffix {sep : UInt8} {idxp rest : List UInt8} {idx : Int64}
    (h : nvLookupIndex sep idxp = some (idx, rest)) : rest <:+ idxp := by
  unfold nvLookupIndex at h
  dsimp only at h
  split at h
  · cases h
  · rename_i idx' idxep hstr
    have hidxep : idxep <:+ idxp := (ddiStrtol_suffix hstr).trans (skipWhitespace_suffix idxp)
    split_ifs at h
    split at h
    · rename_i c sepp hs
      have hsepp : sepp <:+ idxp :=
        ((List.suffix_cons c sepp).trans (hs ▸ skipWhitespace_suffix idxep)).trans hidxep
      split_ifs at h with hc hsep
      · cases h
        exact ((List.tail_suffix _).trans (skipWhitespace_suffix sepp)).trans hsepp
      · cases h
        exact (skipWhitespace_suffix sepp).trans hsepp
    · cases h

/-- The rest of the name is past the `[` or the `sep` that ends the component. -/
theorem nvLookupSplit_sepp_length {sep : UInt8} {np s : List UInt8} {n : ℕ} {idx : Option Int64}
    (h : nvLookupSplit sep np = some (n, idx, some s)) : s.length < np.length := by
  unfold nvLookupSplit at h
  dsimp only at h
  split at h
  · rename_i _ _ i hi
    simp only [Option.map_eq_some_iff, Prod.mk.injEq] at h
    obtain ⟨⟨idx', s'⟩, hidx, -, -, hs⟩ := h
    cases hs
    obtain ⟨hne, hsuf⟩ := strchr_suffix (Option.filter_eq_some_iff.mp hi).1
    have hpos : 0 < i.length := List.length_pos_iff.mpr hne
    have := (nvLookupIndex_suffix hidx).length_le
    have := hsuf.length_le
    simp only [List.length_tail] at *
    omega
  · rename_i _ _ s' _ hs'
    simp only [Option.some.injEq, Prod.mk.injEq] at h
    obtain ⟨-, -, rfl⟩ := h
    have hs'' : strchr np sep = some s' := by
      split_ifs at hs'
      exact hs'
    obtain ⟨hne, hsuf⟩ := strchr_suffix hs''
    have hpos : 0 < s'.length := List.length_pos_iff.mpr hne
    have := hsuf.length_le
    simp only [List.length_tail]
    omega
  · simp at h

/-- The rest of the name a component leaves is shorter than the component. -/
theorem nvLookupScan_sepp_length {sep : UInt8} {np r : List UInt8} {c : NvComponent}
    (h : nvLookupScan sep np = some c) (hr : c.sepp = some r) : r.length < np.length := by
  unfold nvLookupScan at h
  obtain ⟨⟨n, idx, sepp⟩, hsplit, hc⟩ := Option.bind_eq_some_iff.mp h
  dsimp only at hc
  split_ifs at hc
  cases hc
  obtain ⟨s, rfl, hsr⟩ := Option.bind_eq_some_iff.mp hr
  split_ifs at hsr
  cases hsr
  exact lt_of_le_of_lt (skipWhitespace_suffix s).length_le (nvLookupSplit_sepp_length hsplit)

theorem nvLookupMatch_next {nvl l : NvTree} {name r : List UInt8} {indexed : Bool}
    {idx idx' : Int64} {sepp : Option (List UInt8)}
    (h : nvLookupMatch nvl name indexed idx sepp = .next l r idx') : sepp = some r := by
  unfold nvLookupMatch at h
  split at h
  · cases h
  split at h
  · cases h
  split at h
  · cases h
  split at h
  · cases h
    rfl
  · cases h

/-- **A pass that goes on leaves a shorter rest of the name.** -/
theorem nvLookupPass_next_length {sep : UInt8} {nvl l : NvTree} {np r : List UInt8}
    {idx idx' : Int64} (h : nvLookupPass sep nvl np idx = .next l r idx') :
    r.length < np.length := by
  unfold nvLookupPass at h
  dsimp only at h
  split_ifs at h
  split at h
  · cases h
  · rename_i c hc
    have hr := nvLookupMatch_next h
    exact lt_of_lt_of_le (nvLookupScan_sepp_length hc hr) (skipWhitespace_suffix np).length_le

/-- **The fuel is enough.**  With a pass for each byte left, more fuel changes nothing: the loop
stops on its own, at the latest when no byte is left, where `np && *np` fails. -/
theorem nvLookupLoop_fuel (sep : UInt8) (fuel k : ℕ) (nvl : NvTree) (np : List UInt8)
    (idx : Int64) (h : np.length ≤ fuel) :
    nvLookupLoop sep (fuel + k) nvl np idx = nvLookupLoop sep fuel nvl np idx := by
  induction fuel generalizing nvl np idx with
  | zero =>
    obtain rfl : np = [] := List.eq_nil_of_length_eq_zero (Nat.le_zero.mp h)
    cases k <;> rfl
  | succ fuel ih =>
    rw [Nat.add_right_comm]
    simp only [nvLookupLoop]
    split_ifs
    · rfl
    · split
      · rfl
      · rename_i l r idx' hpass
        exact ih l r idx' (by have := nvLookupPass_next_length hpass; omega)

/-! ## Reads outside an array -/

/-- `(int)` of the `uint_t` count of an array is at most the count once it is not negative. -/
theorem nelem_toInt32_le (n : ℕ) (h : 0 ≤ n.toUInt32.toInt32.toInt) :
    n.toUInt32.toInt32.toInt ≤ n := by
  rw [show n.toUInt32 = UInt32.ofNat n from rfl, UInt32.toInt32_ofNat', Int32.toInt_ofNat'] at *
  unfold Int.bmod at *
  simp only [Int32.size] at *
  split_ifs at * <;> omega

theorem nvLookupDescend_outOfBounds {value : NvTreeValue} {idx idx' : Int64} {nelem : ℕ}
    (h : nvLookupDescend value idx = .error (.outOfBounds idx' nelem)) : idx'.toInt < 0 := by
  unfold nvLookupDescend at h
  split at h
  · cases h
  · rename_i nva
    dsimp only at h
    split_ifs at h with hn hneg
    · cases h
    · cases h
      exact hneg
    · -- past the test, `0 ≤ idx < n ≤ nelem`: `nva[idx]` is there
      have hle := nelem_toInt32_le nva.length (by omega)
      have hlt : idx.toInt.toNat < nva.length := by omega
      simp only [List.getElem?_eq_getElem hlt] at h
      cases h
  · cases h

theorem nvLookupMatch_outOfBounds {nvl : NvTree} {name : List UInt8} {indexed : Bool}
    {idx idx' : Int64} {sepp : Option (List UInt8)} {nelem : ℕ}
    (h : nvLookupMatch nvl name indexed idx sepp = .done (.outOfBounds idx' nelem)) :
    idx'.toInt < 0 := by
  unfold nvLookupMatch at h
  split at h
  · cases h
  split at h
  · cases h
  split at h
  · cases h
  split at h
  · cases h
  · rename_i hd
    cases h
    exact nvLookupDescend_outOfBounds hd

theorem nvLookupPass_outOfBounds {sep : UInt8} {nvl : NvTree} {np : List UInt8} {idx idx' : Int64}
    {nelem : ℕ} (h : nvLookupPass sep nvl np idx = .done (.outOfBounds idx' nelem)) :
    idx'.toInt < 0 := by
  unfold nvLookupPass at h
  dsimp only at h
  split_ifs at h
  · cases h
  · cases h
  split at h
  · cases h
  · exact nvLookupMatch_outOfBounds h

theorem nvLookupLoop_outOfBounds {sep : UInt8} {fuel : ℕ} {nvl : NvTree} {np : List UInt8}
    {idx idx' : Int64} {nelem : ℕ}
    (h : nvLookupLoop sep fuel nvl np idx = .outOfBounds idx' nelem) : idx'.toInt < 0 := by
  induction fuel generalizing nvl np idx with
  | zero => cases h
  | succ fuel ih =>
    simp only [nvLookupLoop] at h
    split_ifs at h
    split at h
    · rename_i r hpass
      subst h
      exact nvLookupPass_outOfBounds hpass
    · exact ih h

/-- **The bound test only lets negative indexes through.**  Every read outside an array is at a
negative index: an index at or past the end of the array is refused. -/
theorem nvlistLookupNvpairEiSep_outOfBounds_neg {nvl : NvTree} {name : List UInt8} {sep : UInt8}
    {idx : Int64} {nelem : ℕ}
    (h : nvlistLookupNvpairEiSep nvl name sep = .outOfBounds idx nelem) : idx.toInt < 0 :=
  nvLookupLoop_outOfBounds h

/-! ## Paths of plain names -/

/-- A plain component: a name of bytes none of which is a blank, a `[`, the separator or NUL. -/
structure PlainName (sep : UInt8) (c : List UInt8) : Prop where
  ne_nil : c ≠ []
  plain : ∀ b ∈ c, isBlank b = false ∧ b ≠ 0x5b ∧ b ≠ sep ∧ b ≠ 0

/-- The names `cs` lead from `nvl` to the pair `nvp`: each list on the way has `NV_UNIQUE_NAME`, the
first pair of each name but the last is a `DATA_TYPE_NVLIST` pair, and that of the last is `nvp`. -/
def NvPath : NvTree → List (List UInt8) → NvTreePair → Prop
  | _, [], _ => False
  | nvl, [c], nvp => nvl.uniqueName = true ∧ nvl.pairs.find? (fun p => p.name == c) = some nvp
  | nvl, c :: d :: cs, nvp => nvl.uniqueName = true ∧ ∃ p l,
      nvl.pairs.find? (fun p => p.name == c) = some p ∧ p.value = .nvlist l ∧ NvPath l (d :: cs) nvp

theorem strchr_append_of_forall_ne {c t : List UInt8} {x : UInt8} (h : ∀ b ∈ c, b ≠ x) :
    strchr (c ++ t) x = strchr t x := by
  induction c with
  | nil => rfl
  | cons a c ih =>
    rw [List.cons_append, strchr, if_neg (h a List.mem_cons_self)]
    exact ih fun b hb => h b (List.mem_cons_of_mem a hb)

theorem strchr_cons_self (x : UInt8) (t : List UInt8) : strchr (x :: t) x = some (x :: t) := by
  simp [strchr]

section Plain

variable {sep : UInt8} {c : List UInt8}

theorem PlainName.skipWhitespace_append (hc : PlainName sep c) (t : List UInt8) :
    skipWhitespace (c ++ t) = c ++ t := by
  obtain ⟨a, c', rfl⟩ := List.exists_cons_of_ne_nil hc.ne_nil
  exact List.dropWhile_cons_of_neg (by simp [(hc.plain a List.mem_cons_self).1])

theorem PlainName.trimTrailing_append (hc : PlainName sep c) (t : List UInt8) :
    trimTrailing (c ++ t) c.length = c.length := by
  -- the last byte of the name is not blank
  have hblank : c.reverse.takeWhile isBlank = [] := by
    cases hr : c.reverse with
    | nil => rfl
    | cons a r =>
      have ha : a ∈ c := List.mem_reverse.mp (hr ▸ List.mem_cons_self)
      exact List.takeWhile_cons_of_neg (by simp [(hc.plain a ha).1])
  unfold trimTrailing
  rw [List.take_left' rfl, hblank, List.length_nil, Nat.sub_zero]

theorem PlainName.strchr_append (hc : PlainName sep c) (t : List UInt8) {x : UInt8}
    (hx : x = 0x5b ∨ x = sep) : strchr (c ++ t) x = strchr t x :=
  strchr_append_of_forall_ne fun b hb => by
    rcases hx with rfl | rfl
    · exact (hc.plain b hb).2.1
    · exact (hc.plain b hb).2.2.1

/-- A plain name followed by `sep` and a rest that starts with no blank ends at the `sep`. -/
theorem nvLookupScan_plain_sep (hsep : sep ≠ 0) (hsep' : sep ≠ 0x5b) (hc : PlainName sep c)
    {rest : List UInt8} (hr : rest ≠ []) (hr' : skipWhitespace rest = rest) :
    nvLookupScan sep (c ++ sep :: rest) = some ⟨c.length, none, some rest⟩ := by
  have hs : strchr (c ++ sep :: rest) sep = some (sep :: rest) := by
    rw [hc.strchr_append _ (Or.inr rfl), strchr_cons_self]
  have hi : strchr (c ++ sep :: rest) 0x5b = strchr rest 0x5b := by
    rw [hc.strchr_append _ (Or.inl rfl), strchr, if_neg hsep']
  -- a `[` further on is past the `sep`
  have hfilter : (strchr rest 0x5b).filter
      (fun i => !(some (sep :: rest)).any fun s => s.length > i.length) = none := by
    refine Option.filter_eq_none_iff.mpr fun i hi' => ?_
    have := (strchr_suffix hi').2.length_le
    simp only [Option.any_some, List.length_cons, Bool.not_eq_true', decide_eq_false_iff_not]
    omega
  have hlen : (c ++ sep :: rest).length - (sep :: rest).length = c.length := by simp
  unfold nvLookupScan nvLookupSplit
  simp only [ne_eq, hsep, not_false_eq_true, if_true, hs, hi, hfilter, List.tail_cons,
    Option.bind_some, hlen, List.length_eq_zero_iff, hc.ne_nil, if_false, hr', hr,
    hc.trimTrailing_append]

/-- A plain name alone is the last component. -/
theorem nvLookupScan_plain_last (hc : PlainName sep c) :
    nvLookupScan sep c = some ⟨c.length, none, none⟩ := by
  have hs : (if sep ≠ 0 then strchr c sep else none) = none := by
    split_ifs
    · simpa [strchr] using hc.strchr_append [] (Or.inr rfl)
    · rfl
  have hi : strchr c 0x5b = none := by simpa [strchr] using hc.strchr_append [] (Or.inl rfl)
  have htrim : trimTrailing c c.length = c.length := by simpa using hc.trimTrailing_append []
  unfold nvLookupScan nvLookupSplit
  simp only [hs, hi, Option.filter_none, Option.bind_some, List.length_eq_zero_iff, hc.ne_nil,
    if_false, htrim, Option.bind_none]

variable {nvl l : NvTree} {p : NvTreePair} {idx : Int64}

theorem nvLookupPass_plain_next (hsep : sep ≠ 0) (hsep' : sep ≠ 0x5b) (hc : PlainName sep c)
    {rest : List UInt8} (hr : rest ≠ []) (hr' : skipWhitespace rest = rest)
    (hu : nvl.uniqueName = true) (hf : nvl.pairs.find? (fun p => p.name == c) = some p)
    (hv : p.value = .nvlist l) :
    nvLookupPass sep nvl (c ++ sep :: rest) idx = .next l rest idx := by
  unfold nvLookupPass
  simp [hu, hc.skipWhitespace_append, hc.ne_nil, nvLookupScan_plain_sep hsep hsep' hc hr hr',
    nvLookupMatch, hf, hv, nvLookupDescend]

theorem nvLookupPass_plain_last (hc : PlainName sep c) (hu : nvl.uniqueName = true)
    (hf : nvl.pairs.find? (fun p => p.name == c) = some p) :
    nvLookupPass sep nvl c idx = .done (.found p (-1)) := by
  have hskip : skipWhitespace c = c := by simpa using hc.skipWhitespace_append []
  unfold nvLookupPass
  simp [hu, hskip, hc.ne_nil, nvLookupScan_plain_last hc, nvLookupMatch, hf]

end Plain

/-- The names after the first start with the second, which starts with no blank. -/
theorem intercalate_plain {sep : UInt8} {d : List UInt8} (ds : List (List UInt8))
    (hd : PlainName sep d) :
    [sep].intercalate (d :: ds) ≠ [] ∧
      skipWhitespace ([sep].intercalate (d :: ds)) = [sep].intercalate (d :: ds) := by
  obtain ⟨t, ht⟩ : ∃ t, [sep].intercalate (d :: ds) = d ++ t := by
    cases ds with
    | nil => exact ⟨[], by simp⟩
    | cons e es => exact ⟨[sep] ++ [sep].intercalate (e :: es), by simp [List.intercalate_cons_cons]⟩
  rw [ht]
  exact ⟨by simp [hd.ne_nil], hd.skipWhitespace_append t⟩

/-- The loop walks a path of plain names with a pass for each name. -/
theorem nvLookupLoop_path {sep : UInt8} (hsep : sep ≠ 0) (hsep' : sep ≠ 0x5b) {nvp : NvTreePair}
    {idx : Int64} (cs : List (List UInt8)) (nvl : NvTree) (fuel : ℕ)
    (hfuel : ([sep].intercalate cs).length ≤ fuel) (hcs : ∀ c ∈ cs, PlainName sep c)
    (hpath : NvPath nvl cs nvp) :
    nvLookupLoop sep fuel nvl ([sep].intercalate cs) idx = .found nvp (-1) := by
  induction cs generalizing nvl fuel with
  | nil => exact hpath.elim
  | cons c cs ih =>
    have hc := hcs c List.mem_cons_self
    obtain ⟨f, rfl⟩ : ∃ f, fuel = f + 1 :=
      Nat.exists_eq_add_one.mpr (lt_of_lt_of_le (by
        cases cs <;> simp [List.intercalate_cons_cons, List.length_pos_iff, hc.ne_nil]) hfuel)
    cases cs with
    | nil =>
      obtain ⟨hu, hf⟩ := hpath
      simp only [List.intercalate_singleton] at hfuel ⊢
      simp [nvLookupLoop, hc.ne_nil, nvLookupPass_plain_last hc hu hf]
    | cons d ds =>
      obtain ⟨hu, p, l, hf, hv, hpath'⟩ := hpath
      obtain ⟨hr, hr'⟩ := intercalate_plain ds (hcs d (by simp))
      rw [List.intercalate_cons_cons, List.append_assoc, List.singleton_append] at hfuel ⊢
      have hpass : nvLookupPass sep nvl (c ++ sep :: [sep].intercalate (d :: ds)) idx =
          .next l ([sep].intercalate (d :: ds)) idx :=
        nvLookupPass_plain_next hsep hsep' hc hr hr' hu hf hv
      simp only [nvLookupLoop, hc.ne_nil, List.append_eq_nil_iff, false_and, if_false, hpass]
      exact ih l f (by simp at hfuel; omega) (fun e he => hcs e (List.mem_cons_of_mem c he)) hpath'

/-- **A path of plain names is found.**  Names with no blank, `[`, separator or NUL in them,
joined by `sep`, each naming the embedded list the next one is looked up in, lead to the pair the
last names, not indexed. -/
theorem nvlistLookupNvpairEiSep_path {sep : UInt8} (hsep : sep ≠ 0) (hsep' : sep ≠ 0x5b)
    {nvl : NvTree} {cs : List (List UInt8)} {nvp : NvTreePair} (hcs : ∀ c ∈ cs, PlainName sep c)
    (hpath : NvPath nvl cs nvp) :
    nvlistLookupNvpairEiSep nvl ([sep].intercalate cs) sep = .found nvp (-1) :=
  nvLookupLoop_path hsep hsep' cs nvl _ le_rfl hcs hpath

/-- **The embedded-path lookup runs to its end, finds plain paths, and reads an array outside its
bounds only at a negative index.**  The loop gets a pass for each byte of the name and more passes
change nothing; a path of plain names leads to the pair it names; and `nva[idx]` is read outside
the array only for an index below zero, the one the test `(n < 0) || (idx >= n)` lets by. -/
theorem nvlistLookupNvpairEiSep_spec {sep : UInt8} (hsep : sep ≠ 0) (hsep' : sep ≠ 0x5b)
    (nvl : NvTree) :
    (∀ (name : List UInt8) (k : ℕ),
      nvLookupLoop sep (name.length + k) nvl name 0 = nvlistLookupNvpairEiSep nvl name sep) ∧
    (∀ (cs : List (List UInt8)) (nvp : NvTreePair), (∀ c ∈ cs, PlainName sep c) →
      NvPath nvl cs nvp → nvlistLookupNvpairEiSep nvl ([sep].intercalate cs) sep = .found nvp (-1)) ∧
    (∀ (name : List UInt8) (idx : Int64) (nelem : ℕ),
      nvlistLookupNvpairEiSep nvl name sep = .outOfBounds idx nelem → idx.toInt < 0) :=
  ⟨fun name k => nvLookupLoop_fuel sep name.length k nvl name 0 le_rfl,
    fun _ _ hcs hpath => nvlistLookupNvpairEiSep_path hsep hsep' hcs hpath,
    fun _ _ _ h => nvlistLookupNvpairEiSep_outOfBounds_neg h⟩

/-- `{"a": {"b": <uint64>}}`. -/
def lookupPathNvl : NvTree :=
  .mk true [.mk [0x61] (.nvlist (.mk true [.mk [0x62] (.other .uint64 ⟨by decide, by decide⟩)]))]

theorem nvlistLookupNvpairEiSep_spec_dot :
    (0x2e : UInt8) ≠ 0 ∧ (0x2e : UInt8) ≠ 0x5b ∧
      (∀ (name : List UInt8) (k : ℕ), nvLookupLoop 0x2e (name.length + k) lookupPathNvl name 0 =
        nvlistLookupNvpairEiSep lookupPathNvl name 0x2e) ∧
      (∀ (cs : List (List UInt8)) (nvp : NvTreePair), (∀ c ∈ cs, PlainName 0x2e c) →
        NvPath lookupPathNvl cs nvp →
          nvlistLookupNvpairEiSep lookupPathNvl ([0x2e].intercalate cs) 0x2e = .found nvp (-1)) ∧
      (∀ (name : List UInt8) (idx : Int64) (nelem : ℕ),
        nvlistLookupNvpairEiSep lookupPathNvl name 0x2e = .outOfBounds idx nelem → idx.toInt < 0) :=
  ⟨by decide, by decide, nvlistLookupNvpairEiSep_spec (by decide) (by decide) lookupPathNvl⟩

/-- There `"a.b"` finds the pair `b`. -/
example : nvlistLookupNvpairEiSep lookupPathNvl [0x61, 0x2e, 0x62] 0x2e =
    .found (.mk [0x62] (.other .uint64 ⟨by decide, by decide⟩)) (-1) := rfl

/-! ## The index test -/

/-- `{"a": [{"b": <uint64>}]}`. -/
def lookupArrayNvl : NvTree :=
  .mk true [.mk [0x61] (.nvlistArray [.mk true [.mk [0x62] (.other .uint64 ⟨by decide, by decide⟩)]])]

/-- `"a[-1].b"` reads `nva[-1]`; so does `"a[18446744073709551615].b"`, whose index `ddi_strtoul`
reads as `ULONG_MAX`, which is `-1` as a `long`; `"a[0].b"` is refused. -/
theorem nvlistLookupNvpairEiSep_negative_index :
    nvlistLookupNvpairEiSep lookupArrayNvl [0x61, 0x5b, 0x2d, 0x31, 0x5d, 0x2e, 0x62] 0x2e =
        .outOfBounds (-1) 1 ∧
      nvlistLookupNvpairEiSep lookupArrayNvl
          ([0x61, 0x5b, 0x31, 0x38, 0x34, 0x34, 0x36, 0x37, 0x34, 0x34, 0x30, 0x37, 0x33, 0x37, 0x30,
            0x39, 0x35, 0x35, 0x31, 0x36, 0x31, 0x35, 0x5d, 0x2e, 0x62]) 0x2e =
        .outOfBounds (-1) 1 ∧
      nvlistLookupNvpairEiSep lookupArrayNvl [0x61, 0x5b, 0x30, 0x5d, 0x2e, 0x62] 0x2e = .einval := by
  refine ⟨rfl, rfl, rfl⟩

end Zfs
