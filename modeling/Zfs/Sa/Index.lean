import Mathlib.Data.List.Chain
import Zfs.Spa.Blkptr
import Zfs.Spl.Byteorder
import Zfs.Spl.Sysmacros

/-!
# Sa/Index — the table of contents of a system-attribute buffer

The bonus or spill buffer of a `DMU_OT_SA` object starts with `sa_hdr_phys_t`: the magic, the
layout number and the header size packed in `sa_layout_info`, and the lengths of the
variable-length attributes.  `sa_build_index` (`sa.c`) byteswaps a foreign header, finds the
layout by its number, and lets `sa_attr_iter` lay the layout's attributes out one after the
other from the end of the header, each at an 8-byte boundary, with its registered length or the
next length of the header; `sa_build_idx_tab` records each one's offset and length index in the
table of contents that `sa_attr_op` reads.

* `saAttrIterLoop_attrs`, `saAttrIterLoop_chain` — the attributes are visited in the layout's
  order, and each one's data starts after the previous one's ends;
* `saAttrIterLoop_eq_none_iff`, `saFindIdxTab_eq_none_iff` — the walk fails (dereferencing
  `NULL`) exactly for a layout number that has no layout, or a variable-length attribute
  without a length array; nothing is compared with the size of the buffer;
* `saAttrOpLookup_copies` — `SA_LOOKUP` copies the length the table and the header give, not
  the length of the caller's buffer.
-/

namespace Zfs

/-! ## The header (`sys/sa_impl.h`) -/

/-- `SA_MAGIC`. -/
def saMagic : UInt32 := 0x2F505A

/-- `DMU_OT_SA`, the bonus type of an object with system attributes. -/
def dmuOtSa : UInt64 := 44

/-- `sa_hdr_phys_t` as it lies at the start of the buffer: `sa_magic`, `sa_layout_info`, and
`sa_lengths[i]` for every `i`. -/
structure SaHdrPhys where
  saMagic : UInt32
  saLayoutInfo : UInt16
  saLengths : ℕ → UInt16

/-- `SA_HDR_LAYOUT_NUM(hdr)`. -/
def saHdrLayoutNum (hdr : SaHdrPhys) : UInt32 := bf32Get hdr.saLayoutInfo.toUInt32 0 10

/-- `SA_HDR_SIZE(hdr)`: the header size, stored in 8-byte units. -/
def saHdrSize (hdr : SaHdrPhys) : UInt32 := bf32GetSb hdr.saLayoutInfo.toUInt32 10 6 3 0

/-- `IS_SA_BONUSTYPE(a)`. -/
def isSaBonustype (a : UInt64) : Bool := a == dmuOtSa

/-- `SA_LAYOUT_NUM(x, type)`: layout `0` for a bonus that is not an SA one, and `1` for an SA
header that says `0`. -/
def saLayoutNum (hdr : SaHdrPhys) (type : UInt64) : UInt32 :=
  if !isSaBonustype type then 0
  else if isSaBonustype type && saHdrLayoutNum hdr == 0 then 1
  else saHdrLayoutNum hdr

/-! ## Layouts and the attribute registry -/

/-- A layout `sa_lot_t`: its number, its attributes in order, and how many of them have a
variable length. -/
structure SaLot where
  lotNum : UInt64
  lotAttrs : List UInt16
  lotVarSizes : UInt32
  deriving DecidableEq, Repr

/-- The part of `sa_os_t` that the index reads. -/
structure SaOs where
  /-- `sa_attr_table[attr].sa_length`: the registered length, `0` for a variable one. -/
  saLength : UInt16 → UInt16
  /-- `sa_layout_num_tree`, searched by `lot_num`. -/
  saLayoutNumTree : List SaLot

/-- `avl_find(&sa->sa_layout_num_tree, &search, &loc)` for `search.lot_num = num`. -/
def SaOs.findLayout (sa : SaOs) (num : UInt64) : Option SaLot :=
  sa.saLayoutNumTree.find? (·.lotNum == num)

/-! ## `sa_attr_iter` -/

/-- A call `func(hdr, attr_addr, attr, length, length_idx, var_length, userp)` that
`sa_attr_iter` makes, with `attr_addr` as an offset from `hdr`. -/
structure SaAttrVisit where
  attrOff : ℕ
  attr : UInt16
  length : UInt16
  lengthIdx : UInt8
  varLength : Bool
  deriving DecidableEq, Repr

/-- The loop of `sa_attr_iter` over the attributes `attrs`, the next one's data at `dataStart`
and `length_idx` at `lengthIdx`.  `lengthStart` is `hdr->sa_lengths` for an SA bonus type and
`NULL` otherwise; reading a variable length through `NULL` fails (`none`).  The buffer is
8-aligned, so `P2ROUNDUP` of an address is that of its offset. -/
def saAttrIterLoop (sa : SaOs) (lengthStart : Option (ℕ → UInt16)) :
    List UInt16 → ℕ → UInt8 → Option (List SaAttrVisit)
  | [], _, _ => some []
  | attr :: attrs, dataStart, lengthIdx =>
    let regLength := sa.saLength attr
    if regLength != 0 then
      (saAttrIterLoop sa lengthStart attrs (p2roundup (dataStart + regLength.toNat) 8)
        lengthIdx).map (⟨dataStart, attr, regLength, 0, false⟩ :: ·)
    else
      match lengthStart with
      | none => none
      | some lengths =>
        let attrLength := lengths lengthIdx.toNat
        (saAttrIterLoop sa lengthStart attrs (p2roundup (dataStart + attrLength.toNat) 8)
          (lengthIdx + 1)).map (⟨dataStart, attr, attrLength, lengthIdx, true⟩ :: ·)

/-- `sa_attr_iter(os, hdr, type, func, tab, userp)`, as the calls it makes; with no `tab` it
looks the layout up by the header's number, which the code only `ASSERT`s to exist. -/
def saAttrIter (sa : SaOs) (hdr : SaHdrPhys) (type : UInt64) (tab : Option SaLot) :
    Option (List SaAttrVisit) := do
  let tb ← match tab with
    | some tb => some tb
    | none => sa.findLayout (saLayoutNum hdr type).toUInt64
  if isSaBonustype type then
    -- the data starts after `sa_lengths[lot_var_sizes]`, at offset `6 + 2 * lot_var_sizes`
    saAttrIterLoop sa (some hdr.saLengths) tb.lotAttrs (p2roundup (6 + 2 * tb.lotVarSizes.toNat) 8) 0
  else
    saAttrIterLoop sa none tb.lotAttrs 0 0

/-! ## The table of contents -/

/-- `TOC_OFF(x)`. -/
def tocOff (x : UInt32) : UInt32 := bf32Get x 0 23

/-- `TOC_ATTR_PRESENT(x)`. -/
def tocAttrPresent (x : UInt32) : UInt32 := bf32Get x 31 1

/-- `TOC_LEN_IDX(x)`. -/
def tocLenIdx (x : UInt32) : UInt32 := bf32Get x 24 4

/-- `TOC_ATTR_ENCODE(x, len_idx, offset)`. -/
def tocAttrEncode (x lenIdx offset : UInt32) : UInt32 :=
  bf32Set (bf32Set (bf32Set x 31 1 1) 24 7 lenIdx) 0 24 offset

/-- An index table `sa_idx_tab_t`: the variable lengths it was built for, and an entry for
every attribute number. -/
structure SaIdxTab where
  saVariableLengths : ℕ → UInt16
  saIdxTab : UInt16 → UInt32

/-- `sa_build_idx_tab`, the callback that records one attribute. -/
def saBuildIdxTab (t : SaIdxTab) (v : SaAttrVisit) : SaIdxTab where
  saVariableLengths :=
    if v.varLength then Function.update t.saVariableLengths v.lengthIdx.toNat v.length
    else t.saVariableLengths
  saIdxTab := Function.update t.saIdxTab v.attr
    (tocAttrEncode (t.saIdxTab v.attr) v.lengthIdx.toUInt32 v.attrOff.toUInt32)

/-- A new table: `kmem_zalloc`ed entries. -/
def SaIdxTab.empty : SaIdxTab := ⟨fun _ => 0, fun _ => 0⟩

/-- `sa_find_idx_tab(os, bonustype, hdr)`, building the table afresh (a table it reuses from
`lot_idx_tab` was built the same way for the same layout and variable lengths); `none` where it
dereferences a `NULL` layout, which the code only `ASSERT`s against. -/
def saFindIdxTab (sa : SaOs) (bonustype : UInt64) (hdr : SaHdrPhys) : Option SaIdxTab := do
  let tb ← sa.findLayout (saLayoutNum hdr bonustype).toUInt64
  let visits ← saAttrIter sa hdr bonustype (some tb)
  some (visits.foldl saBuildIdxTab SaIdxTab.empty)

/-! ## `sa_byteswap` and `sa_build_index` -/

/-- The header after `sa_byteswap`: magic and layout info swapped, then as many lengths as the
swapped header size says. -/
def saByteswapHdr (hdr : SaHdrPhys) : SaHdrPhys :=
  let hdr' : SaHdrPhys := { hdr with
    saMagic := bswap32 hdr.saMagic
    saLayoutInfo := (bswap16 hdr.saLayoutInfo.toUInt32).toUInt16 }
  let numLengths := if saHdrSize hdr' > 8 then 1 + ((saHdrSize hdr' - 8) >>> 1).toNat else 1
  { hdr' with
    saLengths := fun i =>
      if i < numLengths then (bswap16 (hdr.saLengths i).toUInt32).toUInt16 else hdr.saLengths i }

/-- What `sa_build_index` ends in: `EIO` for a magic that is wrong either way, a dereference of
a `NULL` layout or length array, or `0` with the header as it now is, the index table, and the
attributes whose data `sa_byteswap` swapped in place. -/
inductive SaBuildIndex
  | eio
  | nullDeref
  | ok (hdr : SaHdrPhys) (tab : SaIdxTab) (swapped : List SaAttrVisit)

/-- `sa_build_index(hdl, buftype)` for a buffer of bonus type `bonustype` holding `hdr`. -/
def saBuildIndex (sa : SaOs) (bonustype : UInt64) (hdr : SaHdrPhys) : SaBuildIndex :=
  if isSaBonustype bonustype && hdr.saMagic != saMagic && hdr.saMagic != 0 then
    if bswap32 hdr.saMagic != saMagic then .eio
    else
      let hdr' := saByteswapHdr hdr
      match saAttrIter sa hdr' dmuOtSa none, saFindIdxTab sa bonustype hdr' with
      | some swapped, some tab => .ok hdr' tab swapped
      | _, _ => .nullDeref
  else
    match saFindIdxTab sa bonustype hdr with
    | some tab => .ok hdr tab []
    | none => .nullDeref

/-! ## `sa_attr_op` for `SA_LOOKUP` -/

/-- `ENOENT`, `EIO` and `ECKSUM` (`EBADE`). -/
def enoent : ℤ := 2
def eio : ℤ := 5
def ecksum : ℤ := 52

/-- `SA_BONUS` and `SA_SPILL`. -/
inductive SaBufType
  | saBonus
  | saSpill
  deriving DecidableEq, Repr

/-- A bulk request `sa_bulk_attr_t`: the attribute, the length of the caller's buffer, and
whether `sa_data` is non-`NULL`. -/
structure SaBulkAttr where
  saAttr : UInt16
  saLength : UInt16
  saData : Bool

/-- `SA_ATTR_INFO`: the offset of an attribute's data from the header (`TOC_OFF`) and its
length `SA_ATTR_LEN`, registered or read from the header at the entry's length index. -/
def saAttrInfo (sa : SaOs) (tab : SaIdxTab) (hdr : SaHdrPhys) (attr : UInt16) : ℕ × ℕ :=
  let idx := tab.saIdxTab attr
  let size := if sa.saLength attr == 0 then hdr.saLengths (tocLenIdx idx).toNat else sa.saLength attr
  ((tocOff idx).toNat, size.toNat)

/-- A copy that `SA_COPY_DATA` makes for `SA_LOOKUP`: `size` bytes from offset `addr` of the
buffer `buftype` into a caller's `sa_data` of `saLength` bytes. -/
structure SaCopy where
  buftype : SaBufType
  addr : ℕ
  size : ℕ
  saLength : ℕ
  deriving DecidableEq, Repr

/-- Where `sa_attr_op` finds an attribute in one buffer: present in its table, or not. -/
def saLocate (sa : SaOs) (buftype : SaBufType) (hdr : SaHdrPhys) (tab : SaIdxTab)
    (attr : UInt16) : Option (SaBufType × ℕ × ℕ) :=
  if tocAttrPresent (tab.saIdxTab attr) != 0 then some (buftype, saAttrInfo sa tab hdr attr)
  else none

/-- Where `sa_attr_op` finds one attribute: in the bonus buffer if its table marks it present,
else through `sa_get_spill`, which gives an error or the spill's header and table (which may
lack the attribute too).  An `ENOENT` from `sa_get_spill` is not an error here. -/
def saAttrOpFind (sa : SaOs) (bonus : Option (SaHdrPhys × SaIdxTab))
    (spill : Except ℤ (SaHdrPhys × SaIdxTab)) (attr : UInt16) :
    Except ℤ (Option (SaBufType × ℕ × ℕ)) :=
  match bonus.bind fun (hdr, tab) => saLocate sa .saBonus hdr tab attr with
  | some loc => .ok (some loc)
  | none =>
    match spill with
    | .ok (hdr, tab) => .ok (saLocate sa .saSpill hdr tab attr)
    | .error e => if e ≠ 0 ∧ e ≠ enoent then .error e else .ok none

/-- `sa_attr_op(hdl, bulk, count, SA_LOOKUP, tx)`: the copies it makes, in order, and what it
returns; the first failure ends it. -/
def saAttrOpLookup (sa : SaOs) (bonus : Option (SaHdrPhys × SaIdxTab))
    (spill : Except ℤ (SaHdrPhys × SaIdxTab)) : List SaBulkAttr → List SaCopy × ℤ
  | [] => ([], 0)
  | b :: bulk =>
    match saAttrOpFind sa bonus spill b.saAttr with
    | .error e => ([], if e = ecksum then eio else e)
    | .ok none => ([], enoent)
    | .ok (some (buftype, addr, size)) =>
      let rest := saAttrOpLookup sa bonus spill bulk
      ((if b.saData then [⟨buftype, addr, size, b.saLength.toNat⟩] else []) ++ rest.1, rest.2)

/-! ## The walk -/

section Iter

variable {sa : SaOs} {lengthStart : Option (ℕ → UInt16)}

/-- **One step of the walk**: the first attribute is visited where the data starts, with its
registered length, or (for a variable one, which needs the length array) with the next length of
the header; the rest follow from the next 8-byte boundary after its data. -/
theorem saAttrIterLoop_cons {a : UInt16} {attrs : List UInt16} {dataStart : ℕ} {lengthIdx : UInt8}
    {vs : List SaAttrVisit}
    (h : saAttrIterLoop sa lengthStart (a :: attrs) dataStart lengthIdx = some vs) :
    ∃ v vs', vs = v :: vs' ∧ v.attrOff = dataStart ∧ v.attr = a ∧
      saAttrIterLoop sa lengthStart attrs (p2roundup (dataStart + v.length.toNat) 8)
        (if v.varLength then lengthIdx + 1 else lengthIdx) = some vs' ∧
      ((sa.saLength a ≠ 0 ∧ v.length = sa.saLength a ∧ v.varLength = false) ∨
        (sa.saLength a = 0 ∧ ∃ lengths, lengthStart = some lengths ∧
          v.length = lengths lengthIdx.toNat ∧ v.lengthIdx = lengthIdx ∧ v.varLength = true)) := by
  simp only [saAttrIterLoop] at h
  split at h
  · -- a registered length
    obtain ⟨vs', h', rfl⟩ := Option.map_eq_some_iff.mp h
    rename_i hreg
    exact ⟨_, vs', rfl, rfl, rfl, h', .inl ⟨by simpa using hreg, rfl, rfl⟩⟩
  · rename_i hreg
    split at h
    · cases h
    · -- a variable length, read from the header
      rename_i lengths
      obtain ⟨vs', h', rfl⟩ := Option.map_eq_some_iff.mp h
      exact ⟨_, vs', rfl, rfl, rfl, h', .inr ⟨by simpa using hreg, lengths, rfl, rfl, rfl, rfl⟩⟩

/-- **The walk visits the layout's attributes, in order.** -/
theorem saAttrIterLoop_attrs {attrs : List UInt16} {dataStart : ℕ} {lengthIdx : UInt8}
    {vs : List SaAttrVisit}
    (h : saAttrIterLoop sa lengthStart attrs dataStart lengthIdx = some vs) :
    vs.map (·.attr) = attrs := by
  induction attrs generalizing dataStart lengthIdx vs with
  | nil =>
    simp only [saAttrIterLoop, Option.some.injEq] at h
    simp [← h]
  | cons a attrs ih =>
    obtain ⟨v, vs', rfl, -, rfl, h', -⟩ := saAttrIterLoop_cons h
    simp [ih h']

/-- **The attributes do not overlap**: each one's data starts where the walk started or later,
and after the previous one's data ends. -/
theorem saAttrIterLoop_chain {attrs : List UInt16} {dataStart : ℕ} {lengthIdx : UInt8}
    {vs : List SaAttrVisit}
    (h : saAttrIterLoop sa lengthStart attrs dataStart lengthIdx = some vs) :
    (∀ v ∈ vs, dataStart ≤ v.attrOff) ∧
      vs.IsChain (fun v w => v.attrOff + v.length.toNat ≤ w.attrOff) := by
  induction attrs generalizing dataStart lengthIdx vs with
  | nil =>
    simp only [saAttrIterLoop, Option.some.injEq] at h
    simp [← h]
  | cons a attrs ih =>
    obtain ⟨v, vs', rfl, hoff, -, h', -⟩ := saAttrIterLoop_cons h
    obtain ⟨hge, hchain⟩ := ih h'
    -- the rest starts at the boundary after `v`'s data
    have hnext : ∀ w ∈ vs', v.attrOff + v.length.toNat ≤ w.attrOff := by
      intro w hw
      rw [hoff]
      exact (le_p2roundup _).trans (hge w hw)
    refine ⟨?_, List.IsChain.cons hchain fun w hw => hnext w (List.mem_of_mem_head? hw)⟩
    intro w hw
    rcases List.mem_cons.mp hw with rfl | hw
    · exact hoff.ge
    · exact hoff ▸ (Nat.le_add_right _ _).trans (hnext w hw)

/-- **The walk fails only through `NULL`**: exactly when a variable-length attribute is met
without a length array; the lengths themselves are never checked. -/
theorem saAttrIterLoop_eq_none_iff {attrs : List UInt16} {dataStart : ℕ} {lengthIdx : UInt8} :
    saAttrIterLoop sa lengthStart attrs dataStart lengthIdx = none ↔
      lengthStart = none ∧ ∃ a ∈ attrs, sa.saLength a = 0 := by
  induction attrs generalizing dataStart lengthIdx with
  | nil => simp [saAttrIterLoop]
  | cons a attrs ih =>
    simp only [saAttrIterLoop]
    split
    · rename_i hreg
      have ha : sa.saLength a ≠ 0 := by simpa using hreg
      simp [ih, ha]
    · rename_i hreg
      have ha : sa.saLength a = 0 := by simpa using hreg
      cases lengthStart with
      | none => simp [ha]
      | some lengths => simp [ih]

end Iter

/-- **The index is found or the code dereferences `NULL`**: `sa_find_idx_tab` fails exactly
when the header names a layout number with no layout, or when the bonus type is not an SA one
and the layout has a variable-length attribute. -/
theorem saFindIdxTab_eq_none_iff {sa : SaOs} {bonustype : UInt64} {hdr : SaHdrPhys} :
    saFindIdxTab sa bonustype hdr = none ↔
      ∀ tb, sa.findLayout (saLayoutNum hdr bonustype).toUInt64 = some tb →
        isSaBonustype bonustype = false ∧ ∃ a ∈ tb.lotAttrs, sa.saLength a = 0 := by
  unfold saFindIdxTab
  cases sa.findLayout (saLayoutNum hdr bonustype).toUInt64 with
  | none => simp
  | some tb =>
    -- with a layout, only the walk can fail
    have hiter : saAttrIter sa hdr bonustype (some tb) = none ↔
        isSaBonustype bonustype = false ∧ ∃ a ∈ tb.lotAttrs, sa.saLength a = 0 := by
      unfold saAttrIter
      cases isSaBonustype bonustype <;> simp [saAttrIterLoop_eq_none_iff]
    cases hw : saAttrIter sa hdr bonustype (some tb) with
    | none => simpa [hw] using hiter
    | some vs => simpa [hw] using hiter

/-! ## What `SA_LOOKUP` copies -/

theorem saLocate_eq_some {sa : SaOs} {buftype : SaBufType} {hdr : SaHdrPhys} {tab : SaIdxTab}
    {attr : UInt16} {loc : SaBufType × ℕ × ℕ} :
    saLocate sa buftype hdr tab attr = some loc ↔
      tocAttrPresent (tab.saIdxTab attr) ≠ 0 ∧ loc = (buftype, saAttrInfo sa tab hdr attr) := by
  by_cases hp : tocAttrPresent (tab.saIdxTab attr) = 0
  · simp [saLocate, hp]
  · simp only [saLocate, hp, bne_iff_ne, ne_eq, not_false_eq_true, if_true, Option.some.injEq,
      true_and]
    exact ⟨fun h => h.symm, fun h => h.symm⟩

/-- Where an attribute is found, its table marks it present and `SA_ATTR_INFO` gives the
place. -/
theorem saAttrOpFind_eq_some {sa : SaOs} {bonus : Option (SaHdrPhys × SaIdxTab)}
    {spill : Except ℤ (SaHdrPhys × SaIdxTab)} {attr : UInt16} {buftype : SaBufType}
    {addr size : ℕ} (h : saAttrOpFind sa bonus spill attr = .ok (some (buftype, addr, size))) :
    ∃ hdr tab, ((buftype = .saBonus ∧ bonus = some (hdr, tab)) ∨
        (buftype = .saSpill ∧ spill = .ok (hdr, tab))) ∧
      tocAttrPresent (tab.saIdxTab attr) ≠ 0 ∧ (addr, size) = saAttrInfo sa tab hdr attr := by
  unfold saAttrOpFind at h
  cases hloc : bonus.bind (fun (hdr, tab) => saLocate sa .saBonus hdr tab attr) with
  | some loc =>
    -- found in the bonus buffer
    simp only [hloc, Except.ok.injEq, Option.some.injEq] at h
    subst h
    obtain ⟨⟨hdr, tab⟩, hb, hl⟩ := Option.bind_eq_some_iff.mp hloc
    obtain ⟨hp, hl⟩ := saLocate_eq_some.mp hl
    cases hl
    exact ⟨hdr, tab, .inl ⟨rfl, hb⟩, hp, rfl⟩
  | none =>
    simp only [hloc] at h
    cases spill with
    | ok p =>
      -- found in the spill
      obtain ⟨hdr, tab⟩ := p
      obtain ⟨hp, hl⟩ := saLocate_eq_some.mp (Except.ok.inj h)
      cases hl
      exact ⟨hdr, tab, .inr ⟨rfl, rfl⟩, hp, rfl⟩
    | error e =>
      by_cases he : e ≠ 0 ∧ e ≠ enoent <;> simp [he] at h

/-- **`SA_LOOKUP` copies what the table says**: every copy `sa_attr_op` makes is of an attribute
of the request, from a buffer whose table marks it present, at the offset and of the length
`SA_ATTR_INFO` reads from that table and header, whatever the length of the caller's buffer. -/
theorem saAttrOpLookup_copies {sa : SaOs} {bonus : Option (SaHdrPhys × SaIdxTab)}
    {spill : Except ℤ (SaHdrPhys × SaIdxTab)} {bulk : List SaBulkAttr} :
    ∀ c ∈ (saAttrOpLookup sa bonus spill bulk).1, ∃ b ∈ bulk, c.saLength = b.saLength.toNat ∧
      ∃ hdr tab, ((c.buftype = .saBonus ∧ bonus = some (hdr, tab)) ∨
          (c.buftype = .saSpill ∧ spill = .ok (hdr, tab))) ∧
        tocAttrPresent (tab.saIdxTab b.saAttr) ≠ 0 ∧ (c.addr, c.size) = saAttrInfo sa tab hdr b.saAttr := by
  induction bulk with
  | nil => simp [saAttrOpLookup]
  | cons b bulk ih =>
    intro c hc
    simp only [saAttrOpLookup] at hc
    split at hc
    · simp at hc
    · simp at hc
    · rename_i buftype addr size hfind
      rcases List.mem_append.mp hc with hc | hc
      · -- the copy of this request
        split at hc
        · obtain rfl := List.mem_singleton.mp hc
          exact ⟨b, List.mem_cons_self, rfl, saAttrOpFind_eq_some hfind⟩
        · simp at hc
      · obtain ⟨b', hb', hrest⟩ := ih c hc
        exact ⟨b', List.mem_cons_of_mem _ hb', hrest⟩

/-- **What `sa_attr_iter` lays out and what `SA_LOOKUP` copies**: the walk visits the layout's
attributes in order, each from the data start on and at or past the end of the one before, and
fails exactly for a variable-length attribute where there is no length array, so that
`sa_find_idx_tab` fails only for a missing layout or such an attribute; every copy of
`SA_LOOKUP` is of an attribute that the bonus or spill table marks present, at the offset and
length `SA_ATTR_INFO` gives, into a caller's buffer of the request's length. -/
theorem saAttrIter_saAttrOpLookup_spec (sa : SaOs) (lengthStart : Option (ℕ → UInt16))
    (attrs : List UInt16) (dataStart : ℕ) (lengthIdx : UInt8)
    (bonus : Option (SaHdrPhys × SaIdxTab)) (spill : Except ℤ (SaHdrPhys × SaIdxTab))
    (bulk : List SaBulkAttr) :
    (∀ vs, saAttrIterLoop sa lengthStart attrs dataStart lengthIdx = some vs →
      vs.map (·.attr) = attrs ∧ (∀ v ∈ vs, dataStart ≤ v.attrOff) ∧
        vs.IsChain (fun v w => v.attrOff + v.length.toNat ≤ w.attrOff)) ∧
    (saAttrIterLoop sa lengthStart attrs dataStart lengthIdx = none ↔
      lengthStart = none ∧ ∃ a ∈ attrs, sa.saLength a = 0) ∧
    (∀ bonustype hdr, saFindIdxTab sa bonustype hdr = none ↔
      ∀ tb, sa.findLayout (saLayoutNum hdr bonustype).toUInt64 = some tb →
        isSaBonustype bonustype = false ∧ ∃ a ∈ tb.lotAttrs, sa.saLength a = 0) ∧
    ∀ c ∈ (saAttrOpLookup sa bonus spill bulk).1, ∃ b ∈ bulk, c.saLength = b.saLength.toNat ∧
      ∃ hdr tab, ((c.buftype = .saBonus ∧ bonus = some (hdr, tab)) ∨
          (c.buftype = .saSpill ∧ spill = .ok (hdr, tab))) ∧
        tocAttrPresent (tab.saIdxTab b.saAttr) ≠ 0 ∧ (c.addr, c.size) = saAttrInfo sa tab hdr b.saAttr :=
  ⟨fun _ h => ⟨saAttrIterLoop_attrs h, saAttrIterLoop_chain h⟩, saAttrIterLoop_eq_none_iff,
    fun _ _ => saFindIdxTab_eq_none_iff, saAttrOpLookup_copies⟩

/-- Attribute 1 of 8 bytes and the variable attribute 0. -/
def saTwoAttrs : SaOs := ⟨fun a => if a = 0 then 0 else 8, []⟩

/-- Attribute 1 at offset 8, then attribute 0, of the header's first length 4, at the next 8-byte
boundary. -/
theorem saAttrIter_saAttrOpLookup_spec_two :
    saAttrIterLoop saTwoAttrs (some fun _ => 4) [1, 0] 8 0 =
        some [⟨8, 1, 8, 0, false⟩, ⟨16, 0, 4, 0, true⟩] ∧
      (([⟨8, 1, 8, 0, false⟩, ⟨16, 0, 4, 0, true⟩] : List SaAttrVisit).map (·.attr) = [1, 0] ∧
        (∀ v ∈ ([⟨8, 1, 8, 0, false⟩, ⟨16, 0, 4, 0, true⟩] : List SaAttrVisit), 8 ≤ v.attrOff) ∧
        ([⟨8, 1, 8, 0, false⟩, ⟨16, 0, 4, 0, true⟩] : List SaAttrVisit).IsChain
          (fun v w => v.attrOff + v.length.toNat ≤ w.attrOff)) := by
  have hrun : saAttrIterLoop saTwoAttrs (some fun _ => 4) [1, 0] 8 0 =
      some [⟨8, 1, 8, 0, false⟩, ⟨16, 0, 4, 0, true⟩] := by decide
  exact ⟨hrun, (saAttrIter_saAttrOpLookup_spec saTwoAttrs (some fun _ => 4) [1, 0] 8 0 none
    (.error enoent) []).1 _ hrun⟩

/-- An SA bonus buffer with the native magic and an 8-byte header for layout `2`, whose one
length says `0xFFFF`, under a layout `2` that holds one variable-length attribute:
`sa_build_index` returns `0` with a table that places the attribute at offset 8 with length
65535, past the end of any bonus buffer, and `SA_LOOKUP` of it into an 8-byte `sa_data` copies
those 65535 bytes. -/
theorem saBuildIndex_length_past_buffer :
    let sa : SaOs := ⟨fun a => if a = 0 then 0 else 8, [⟨2, [0], 1⟩]⟩
    let hdr : SaHdrPhys := ⟨saMagic, 0x0402, fun i => if i = 0 then 0xFFFF else 0⟩
    ∃ tab, saBuildIndex sa dmuOtSa hdr = .ok hdr tab [] ∧
      tocAttrPresent (tab.saIdxTab 0) ≠ 0 ∧ saAttrInfo sa tab hdr 0 = (8, 65535) ∧
      saAttrOpLookup sa (some (hdr, tab)) (.error enoent) [⟨0, 8, true⟩] =
        ([⟨.saBonus, 8, 65535, 8⟩], 0) := by
  intro sa hdr
  -- the header names layout 2, which has the attribute at the first 8-byte boundary
  have hlayout : sa.findLayout (saLayoutNum hdr dmuOtSa).toUInt64 = some ⟨2, [0], 1⟩ := by
    simp only [SaOs.findLayout, sa]
    decide
  refine ⟨[(⟨8, 0, 0xFFFF, 0, true⟩ : SaAttrVisit)].foldl saBuildIdxTab SaIdxTab.empty, ?_, by decide,
    by decide, by decide⟩
  have hmagic : (isSaBonustype dmuOtSa && hdr.saMagic != saMagic && hdr.saMagic != 0) = false := by
    decide
  simp only [saBuildIndex, hmagic, Bool.false_eq_true, if_false, saFindIdxTab, hlayout]
  rfl

end Zfs
