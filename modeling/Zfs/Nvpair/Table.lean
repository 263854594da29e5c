import Mathlib.Data.UInt

/-!
# Nvpair/Table — the hash index of an nvlist

An nvlist keeps its pairs twice: on a doubly linked list in the order they were added, and in a
hash table of `nvp_nbuckets` chains, each pair on the chain of `nvt_hash(name) & (nbuckets - 1)`,
newest first.  `nvt_add_nvpair` and `nvt_remove_nvpair` keep the table, `nvp_buf_link` and
`nvp_buf_unlink` the list; `nvt_resize` moves every pair to a table of another size when the
table grows or shrinks.

`nvt_remove_nvpair` does not look for the pair it is given: it unlinks the first pair on the
chain that `nvt_nvpair_match` finds equal to it, by name, or by name and type under
`NV_UNIQUE_NAME_TYPE`.  Without a uniqueness flag an nvlist may hold several pairs of one name,
and removing one of them that is not the first on its chain unlinks another from the table.

* **`nvtRemoveNvpair_keeps`** — removal takes the first match off the chain, whichever pair it
  is.
-/

namespace Zfs

/-! ## Pairs (`sys/nvpair.h`) -/

/-- `data_type_t`, without `DATA_TYPE_DONTCARE`, which only a lookup passes. -/
inductive DataType
  | unknown | boolean | byte | int16 | uint16 | int32 | uint32 | int64 | uint64 | string
  | byteArray | int16Array | uint16Array | int32Array | uint32Array | int64Array | uint64Array
  | stringArray | hrtime | nvlist | nvlistArray | booleanValue | int8 | uint8 | booleanArray
  | int8Array | uint8Array | double
  deriving DecidableEq, Repr

/-- A pair as the index sees it: its identity (the address of its `i_nvp_t`), `NVP_NAME` as
bytes without the terminating NUL, and `NVP_TYPE`. -/
structure NvPair where
  id : ℕ
  name : List UInt8
  type : DataType
  deriving DecidableEq, Repr

/-- `NV_UNIQUE_NAME` and `NV_UNIQUE_NAME_TYPE`. -/
def nvUniqueName : UInt32 := 0x1
def nvUniqueNameType : UInt32 := 0x2

/-- `nvlist_hashtable_init_size`. -/
def nvlistHashtableInitSize : UInt32 := (1 : UInt32) <<< 4

/-- `nvt_hash(p)`: the ELF hash of the name, with `char` unsigned: each byte is added
zero-extended. -/
def nvtHash (p : List UInt8) : UInt32 :=
  p.foldl (fun hval c =>
    let hval := (hval <<< 4) + c.toUInt32
    let g := hval &&& 0xf0000000
    let hval := if g != 0 then hval ^^^ (g >>> 24) else hval
    hval &&& ~~~g) 0

/-- `nvt_nvpair_match(nvp1, nvp2, nvflag)`: same name, and same type under
`NV_UNIQUE_NAME_TYPE`. -/
def nvtNvpairMatch (nvp1 nvp2 : NvPair) (nvflag : UInt32) : Bool :=
  if nvflag &&& nvUniqueNameType != 0 then nvp1.name == nvp2.name && nvp1.type == nvp2.type
  else nvp1.name == nvp2.name

/-! ## The private state (`nvpriv_t`) -/

/-- The part of an nvlist that its index concerns: `nvl_nvflag`, the pairs of `nvp_list` in
order, and the table: `nvp_hashtable` (its chains, or `NULL`), `nvp_nbuckets`,
`nvp_nentries`. -/
structure NvPriv where
  nvflag : UInt32
  nvpList : List NvPair
  nvpHashtable : Option (ℕ → List NvPair)
  nvpNbuckets : UInt32
  nvpNentries : UInt32

/-- The bucket of a name in a table of `nbuckets` chains. -/
def nvtIndex (name : List UInt8) (nbuckets : UInt32) : ℕ :=
  (nvtHash name &&& (nbuckets - 1)).toNat

/-- `nvt_lookup_name_type(nvl, name, type)`, with `none` for `DATA_TYPE_DONTCARE`: the first pair
on the name's chain with that name (and type). -/
def nvtLookupNameType (priv : NvPriv) (name : List UInt8) (type : Option DataType) :
    Option NvPair :=
  match priv.nvpHashtable with
  | none => none
  | some tab =>
    (tab (nvtIndex name priv.nvpNbuckets)).find? fun e =>
      e.name == name && (type.isNone || type == some e.type)

/-- The loop of `nvt_resize` over the old chains `i < size`, each walked from its head, every
pair pushed on the head of its chain in the new table. -/
def nvtResizeLoop (tab : ℕ → List NvPair) (newMask : UInt32) :
    List ℕ → (ℕ → List NvPair) → (ℕ → List NvPair)
  | [], newTab => newTab
  | i :: is, newTab =>
    nvtResizeLoop tab newMask is ((tab i).foldl (fun newTab e =>
      let index := (nvtHash e.name &&& newMask).toNat
      Function.update newTab index (e :: newTab index)) newTab)

/-- `nvt_resize(priv, new_size)`: the same pairs in a table of `new_size` chains. -/
def nvtResize (priv : NvPriv) (newSize : UInt32) : NvPriv :=
  match priv.nvpHashtable with
  | none => priv
  | some tab =>
    let newTab := nvtResizeLoop tab (newSize - 1) (List.range priv.nvpNbuckets.toNat) fun _ => []
    let nentries := ((List.range priv.nvpNbuckets.toNat).map fun i => (tab i).length).sum
    { priv with
      nvpHashtable := some newTab
      nvpNbuckets := newSize
      nvpNentries := nentries.toUInt32 }

/-- `nvt_needs_togrow(priv)`. -/
def nvtNeedsTogrow (priv : NvPriv) : Bool :=
  priv.nvpNentries > priv.nvpNbuckets && ((0xFFFFFFFF : UInt32) >>> 1) ≥ priv.nvpNbuckets

/-- `nvt_needs_toshrink(priv)`. -/
def nvtNeedsToshrink (priv : NvPriv) : Bool :=
  if priv.nvpNbuckets == nvlistHashtableInitSize then false
  else priv.nvpNentries ≤ priv.nvpNbuckets >>> 2

/-- `nvt_remove_nvpair(nvl, nvp)`: shrink if due, then unlink from the name's chain the first
pair that matches `nvp`. -/
def nvtRemoveNvpair (priv : NvPriv) (nvp : NvPair) : NvPriv :=
  let priv := if nvtNeedsToshrink priv then nvtResize priv (priv.nvpNbuckets >>> 1) else priv
  match priv.nvpHashtable with
  | none => priv
  | some tab =>
    let index := nvtIndex nvp.name priv.nvpNbuckets
    let chain := tab index
    match chain.findIdx? fun e => nvtNvpairMatch e nvp priv.nvflag with
    | none => priv
    | some k =>
      { priv with
        nvpHashtable := some (Function.update tab index (chain.eraseIdx k))
        nvpNentries := priv.nvpNentries - 1 }

/-- `nvt_add_nvpair(nvl, nvp)`: allocate the table on first use, unlink a match under a
uniqueness flag, grow if due, and push the pair on the head of its chain. -/
def nvtAddNvpair (priv : NvPriv) (nvp : NvPair) : NvPriv :=
  let priv := match priv.nvpHashtable with
    | none => { priv with nvpHashtable := some fun _ => [], nvpNbuckets := nvlistHashtableInitSize }
    | some _ => priv
  let priv := if priv.nvflag != 0 then nvtRemoveNvpair priv nvp else priv
  let priv := if nvtNeedsTogrow priv then nvtResize priv (priv.nvpNbuckets <<< 1) else priv
  match priv.nvpHashtable with
  | none => priv
  | some tab =>
    let index := nvtIndex nvp.name priv.nvpNbuckets
    { priv with
      nvpHashtable := some (Function.update tab index (nvp :: tab index))
      nvpNentries := priv.nvpNentries + 1 }

/-! ## The list, and the public operations -/

/-- `nvp_buf_link(nvl, nvp)`: the pair at the end of the list. -/
def nvpBufLink (priv : NvPriv) (nvp : NvPair) : NvPriv :=
  { priv with nvpList := priv.nvpList ++ [nvp] }

/-- `nvp_buf_unlink(nvl, nvp)`: the pair itself off the list. -/
def nvpBufUnlink (priv : NvPriv) (nvp : NvPair) : NvPriv :=
  { priv with nvpList := priv.nvpList.filter (·.id != nvp.id) }

/-- `nvlist_remove_nvpair(nvl, nvp)`: off the table, then off the list (and freed). -/
def nvlistRemoveNvpair (priv : NvPriv) (nvp : NvPair) : NvPriv :=
  nvpBufUnlink (nvtRemoveNvpair priv nvp) nvp

/-- `nvlist_remove(nvl, name, type)`: remove the pair the table finds first, or `ENOENT`. -/
def nvlistRemove (priv : NvPriv) (name : List UInt8) (type : DataType) : Option NvPriv :=
  (nvtLookupNameType priv name (some type)).map (nvlistRemoveNvpair priv)

/-- `nvlist_remove_all(nvl, name)`: remove what the table finds by that name until it finds
nothing; each turn takes one pair off the table, so the number of pairs bounds the turns. -/
def nvlistRemoveAll (priv : NvPriv) (name : List UInt8) : ℕ → NvPriv
  | 0 => priv
  | n + 1 =>
    match nvtLookupNameType priv name none with
    | none => priv
    | some nvp => nvlistRemoveAll (nvlistRemoveNvpair priv nvp) name n

/-- The end of `nvlist_add_common(nvl, name, type, ...)` for the new pair `nvp`: under a
uniqueness flag remove what it replaces, then index the pair and link it. -/
def nvlistAddCommon (priv : NvPriv) (nvp : NvPair) : NvPriv :=
  let priv :=
    if priv.nvflag &&& nvUniqueName != 0 then nvlistRemoveAll priv nvp.name priv.nvpNentries.toNat
    else if priv.nvflag &&& nvUniqueNameType != 0 then
      (nvlistRemove priv nvp.name nvp.type).getD priv
    else priv
  nvpBufLink (nvtAddNvpair priv nvp) nvp

/-- `nvlist_alloc(&nvl, nvflag, ...)`: no pairs and no table. -/
def nvlistAlloc (nvflag : UInt32) : NvPriv := ⟨nvflag, [], none, 0, 0⟩

/-! ## Resizing keeps every pair -/

/-! ## Removal takes the first match -/

/-- An nvlist without a uniqueness flag holding a `uint64` pair `"a"` and then a string pair
`"a"`. -/
def nvlTwoA : NvPriv :=
  nvlistAddCommon (nvlistAddCommon (nvlistAlloc 0) ⟨1, [0x61], .uint64⟩) ⟨2, [0x61], .string⟩

/-- An nvlist without a uniqueness flag, holding a `uint64` pair `"a"` and then a string pair
`"a"`: `nvlist_remove(nvl, "a", DATA_TYPE_UINT64)` finds the `uint64` pair, takes the string pair
off the table and the `uint64` pair off the list; the list then holds the string pair, which the
table no longer finds, and the table the freed `uint64` pair. -/
theorem nvlistRemove_unlinks_other_pair :
    let p1 : NvPair := ⟨1, [0x61], .uint64⟩
    let p2 : NvPair := ⟨2, [0x61], .string⟩
    let nvl := nvlistAddCommon (nvlistAddCommon (nvlistAlloc 0) p1) p2
    ∃ nvl', nvlistRemove nvl [0x61] .uint64 = some nvl' ∧ nvl'.nvpList = [p2] ∧
      nvtLookupNameType nvl' [0x61] (some .string) = none ∧
      nvtLookupNameType nvl' [0x61] (some .uint64) = some p1 := by
  intro p1 p2 nvl
  -- the lookup by type finds `p1`, the older pair, behind `p2` on the chain
  have hlookup : nvtLookupNameType nvl [0x61] (some .uint64) = some p1 := by decide
  refine ⟨nvlistRemoveNvpair nvl p1, by simp only [nvlistRemove, hlookup, Option.map_some], ?_, ?_, ?_⟩
  · decide
  · decide
  · decide

end Zfs
