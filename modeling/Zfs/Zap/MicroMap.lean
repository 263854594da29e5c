import Zfs.Zap.Micro
import Zfs.Lib.Slots
import Zfs.Lib.HashChains

/-!
# Zap/MicroMap — a micro ZAP is a map from names to values

    chunks of the block ──mzap_open──▸ tree `zap_avl` ──mze_find──▸ the chunk of a name

A micro ZAP keeps its entries twice: in the chunks of its block, which is what is written, and
in the tree `zap_m.zap_avl` that `mzap_open` builds from them, one node for each chunk in use at
the hash of its name and its `cd`.  Every call searches the tree (`mze_find`) and writes both.
`MzapStore` says that the two agree — the tree holds, up to order, the nodes `mzap_open` would
build from the block as it is now (`mzapOpenNodes`) — and that no two chunks in use hold one
name.  The block then holds a map `Mzap.contents` from names to values, and the calls act on it
as a map's insert and erase do.

* `MzapStore.mzeFind_cases` — under the invariant, the walk of `mze_find` over the nodes of one
  hash finds the node of the chunk that holds the name, and nothing when no chunk does;
* `MzapStore.call_refines` — each of `zap_add`, `zap_update` and `zap_remove` keeps the invariant,
  does to the map what `MzapCall.apply` says, upgrades only a micro ZAP it left as it was, and
  never panics;
* **`zapLookup_refines_contents`** — `zap_lookup` and `zap_contains` read the map;
* **`mzapRun_refines_map`** — so does every run of calls: the micro ZAP a run leaves holds the
  fold of the calls over the map, and one it upgrades holds that of the calls before.
-/

namespace Zfs

open HashChains

/-! ## Lookup, and the two views of the entries -/

/-- The errors `zap_lookup_impl` returns on a micro ZAP. -/
inductive ZapLookupErr
  | enoent | eoverflow | einval
  deriving DecidableEq, Repr

/-- `zap_lookup(os, zapobj, name, integer_size, num_integers, buf)` on a micro ZAP
(`zap_lookup_norm` with no match type, then `zap_lookup_impl`): the value in the chunk of the
node `mze_find` finds, if the caller's buffer holds at least one 8-byte integer. -/
def zapLookup (z : Mzap) (name : List UInt8) (integerSize numIntegers : ℕ) :
    Except ZapLookupErr UInt64 :=
  match mzeFind z name (z.nameHash name) with
  | none => .error .enoent
  | some mze =>
    if numIntegers < 1 then .error .eoverflow
    else if integerSize ≠ 8 then .error .einval
    else .ok (z.chunk mze.mzeChunkid).mzeValue

/-- `zap_contains(os, zapobj, name)`: a lookup into no buffer, so that a name found ends on
`EOVERFLOW`, which counts as found. -/
def zapContains (z : Mzap) (name : List UInt8) : Except ZapLookupErr Unit :=
  match zapLookup z name 0 0 with
  | .error .eoverflow | .error .einval | .ok _ => .ok ()
  | .error .enoent => .error .enoent

/-- The node `mze_insert` makes for chunk `i`: at the hash of its name and its `cd`. -/
def Mzap.openNode (z : Mzap) (i : ℕ) : MzapEnt :=
  ⟨i, z.nameHash (z.chunk i).mzeName, (z.chunk i).mzeCd⟩

/-- The nodes `mzap_open` inserts into a new tree: one for each chunk below `zap_num_chunks`
whose name is not empty. -/
def mzapOpenNodes (z : Mzap) : List MzapEnt :=
  (List.range z.zapNumChunks).filterMap fun i =>
    if (z.chunk i).mzeName ≠ [] then some (z.openNode i) else none

/-- The map a micro ZAP holds: a name's value is the one in the chunk in use that holds it. -/
def Mzap.contents (z : Mzap) (name : List UInt8) : Option UInt64 :=
  ((z.mzChunk.filter fun c => c.mzeName ≠ []).find? fun c => c.mzeName = name).map (·.mzeValue)

/-- **The store's invariant**: `MzapOk`; the tree holds, up to order, what `mzap_open` builds
from the block; and no two chunks in use hold one name. -/
structure MzapStore (z : Mzap) : Prop where
  ok : MzapOk z
  tree : z.zapAvl.nodes.Perm (mzapOpenNodes z)
  unique : ∀ i j, (z.chunk i).mzeName = (z.chunk j).mzeName → (z.chunk i).mzeName ≠ [] → i = j

/-! ## What the calls should do to the map -/

/-- The name a call is about. -/
def MzapCall.name : MzapCall → List UInt8
  | .add key .. => key
  | .update name .. => name
  | .remove name => name

/-- What a call that the micro ZAP takes does to its map: `zap_add` of a name that is there
changes nothing, `zap_update` sets the value, `zap_remove` erases the name. -/
def MzapCall.apply (m : List UInt8 → Option UInt64) : MzapCall → List UInt8 → Option UInt64
  | .add key _ _ value => if m key = none then Function.update m key (some value) else m
  | .update name _ _ value => Function.update m name (some value)
  | .remove name => Function.update m name none

/-- How a call on a micro ZAP holding `m` meets the map `m'` it should leave: the micro ZAP it
returns keeps the invariant and holds `m'`, one it upgrades keeps it and still holds `m`, and
the call does not panic. -/
def MzapResult.Refines (m m' : List UInt8 → Option UInt64) : MzapResult → Prop
  | .ok z | .eexist z | .enoent z => MzapStore z ∧ z.contents = m'
  | .upgrade z => MzapStore z ∧ z.contents = m
  | .panic => False

/-! ## Chunks

Each call changes the block in one of three ways: zeroed chunks appended, one chunk written,
or one chunk's value replaced.  `Mzap.chunk` reads past the end as a zeroed chunk, so each is
one equation on `chunk`. -/

section Chunks

variable {z z' : Mzap}

theorem Mzap.chunk_of_le {i : ℕ} (hi : z.mzChunk.length ≤ i) : z.chunk i = mzapEntPhysZero := by
  unfold Mzap.chunk
  rw [List.getD_eq_getElem?_getD, List.getElem?_eq_none hi, Option.getD_none]

/-- A chunk read past the block has no name. -/
theorem Mzap.mzeName_chunk_of_le {i : ℕ} (hi : z.mzChunk.length ≤ i) : (z.chunk i).mzeName = [] := by
  rw [Mzap.chunk_of_le hi]
  rfl

theorem Mzap.lt_of_mzeName_ne_nil {i : ℕ} (h : (z.chunk i).mzeName ≠ []) : i < z.mzChunk.length :=
  Nat.lt_of_not_le fun hi => h (Mzap.mzeName_chunk_of_le hi)

theorem Mzap.chunk_of_append_zero {k : ℕ}
    (h : z'.mzChunk = z.mzChunk ++ List.replicate k mzapEntPhysZero) (j : ℕ) :
    z'.chunk j = z.chunk j := by
  unfold Mzap.chunk
  rw [h]
  by_cases hj : j < z.mzChunk.length
  · exact List.getD_append _ _ _ _ hj
  · rw [List.getD_append_right _ _ _ _ (Nat.le_of_not_lt hj), List.getD_eq_getElem?_getD,
      List.getD_eq_getElem?_getD, List.getElem?_eq_none (Nat.le_of_not_lt hj)]
    by_cases hk : j - z.mzChunk.length < k
    · rw [List.getElem?_replicate_of_lt hk]
      rfl
    · rw [List.getElem?_eq_none (by simpa using Nat.le_of_not_lt hk)]

theorem Mzap.chunk_of_set {i : ℕ} {c : MzapEntPhys} (hi : i < z.mzChunk.length)
    (h : z'.mzChunk = z.mzChunk.set i c) (j : ℕ) : z'.chunk j = if j = i then c else z.chunk j := by
  unfold Mzap.chunk
  rw [h, List.getD_eq_getElem?_getD, List.getD_eq_getElem?_getD, List.getElem?_set]
  by_cases hj : j = i
  · subst hj
    rw [if_pos rfl, if_pos hi, if_pos rfl, Option.getD_some]
  · rw [if_neg (Ne.symm hj), if_neg hj]

theorem Mzap.chunk_of_modify {i : ℕ} {f : MzapEntPhys → MzapEntPhys} (hi : i < z.mzChunk.length)
    (h : z'.mzChunk = z.mzChunk.modify i f) (j : ℕ) :
    z'.chunk j = if j = i then f (z.chunk j) else z.chunk j := by
  unfold Mzap.chunk
  rw [h, List.getD_eq_getElem?_getD, List.getD_eq_getElem?_getD, List.getElem?_modify]
  by_cases hj : j = i
  · subst hj
    rw [List.getElem?_eq_getElem hi]
    simp
  · rw [if_neg hj]
    cases z.mzChunk[j]? <;> simp [Ne.symm hj]

/-- The node of a chunk depends on the chunk and the salt only. -/
theorem Mzap.openNode_congr {i : ℕ} (hsalt : z'.mzSalt = z.mzSalt)
    (hname : (z'.chunk i).mzeName = (z.chunk i).mzeName) (hcd : (z'.chunk i).mzeCd = (z.chunk i).mzeCd) :
    z'.openNode i = z.openNode i := by
  unfold Mzap.openNode
  rw [Mzap.nameHash_congr hsalt, hname, hcd]

theorem mem_mzapOpenNodes {e : MzapEnt} :
    e ∈ mzapOpenNodes z ↔ e.mzeChunkid < z.zapNumChunks ∧ (z.chunk e.mzeChunkid).mzeName ≠ [] ∧
      e = z.openNode e.mzeChunkid := by
  unfold mzapOpenNodes
  rw [List.mem_filterMap]
  constructor
  · rintro ⟨i, hi, he⟩
    split_ifs at he with hne
    cases he
    exact ⟨List.mem_range.mp hi, hne, rfl⟩
  · rintro ⟨hi, hne, he⟩
    exact ⟨e.mzeChunkid, List.mem_range.mpr hi, by rw [if_pos hne, ← he]⟩

/-- **Writing a name into a free chunk `i`** adds the chunk's node to the nodes `mzap_open`
builds, up to order. -/
theorem mzapOpenNodes_fill {i : ℕ} (hsalt : z'.mzSalt = z.mzSalt)
    (hn : z'.zapNumChunks = z.zapNumChunks) (hi : i < z.zapNumChunks)
    (hother : ∀ j, j ≠ i → z'.chunk j = z.chunk j) (hfree : (z.chunk i).mzeName = [])
    (hne : (z'.chunk i).mzeName ≠ []) : (mzapOpenNodes z').Perm (z'.openNode i :: mzapOpenNodes z) := by
  unfold mzapOpenNodes
  rw [hn]
  refine Slots.filterMap_range_fill hi (fun j hj => ?_) (by simp [hfree]) (by rw [if_pos hne])
  rw [Mzap.openNode_congr hsalt (by rw [hother j hj]) (by rw [hother j hj]), hother j hj]

end Chunks

/-! ## The walk of `mze_find`

The tree is in increasing order of `(hash, cd)`, so the nodes below `(hash, 0)` are the nodes of
smaller hashes, and the nodes of the hash follow them in a row. -/

namespace MzeAvl

/-- From a node of hash at least `h` on, the nodes of hash `h` come first. -/
theorem takeWhile_hash_eq_filter {h : UInt64} : ∀ {L : List MzapEnt},
    (L.map MzapEnt.key).Pairwise ZapLeafEntry.Lt → (∀ x ∈ L, h ≤ x.mzeHash) →
    L.takeWhile (fun x => x.mzeHash = h) = L.filter (fun x => x.mzeHash = h)
  | [], _, _ => rfl
  | x :: rest, hs, hge => by
    simp only [List.map_cons, List.pairwise_cons, List.mem_map] at hs
    have hafter : ∀ y ∈ rest, x.mzeHash ≤ y.mzeHash := fun y hy => (hs.1 _ ⟨y, hy, rfl⟩).hash_le
    by_cases hx : x.mzeHash = h
    · rw [List.takeWhile_cons_of_pos (by simpa using hx), List.filter_cons_of_pos (by simpa using hx),
        takeWhile_hash_eq_filter hs.2 fun y hy => hx ▸ hafter y hy]
    · -- `x` is above `h`, and so is every node after it
      have hxgt : h < x.mzeHash := UInt64.lt_of_le_of_ne (hge x List.mem_cons_self) (Ne.symm hx)
      rw [List.takeWhile_cons_of_neg (by simpa using hx), List.filter_cons_of_neg (by simpa using hx),
        eq_comm, List.filter_eq_nil_iff]
      intro y hy hyh
      have hyh : y.mzeHash = h := by simpa using hyh
      exact absurd (hyh ▸ hafter y hy) (UInt64.not_le.mpr hxgt)

/-- **The walk of `mze_find`** from the first node at or after `(h, 0)`, while the hash stays
`h`, meets exactly the nodes of hash `h`. -/
theorem walk_eq_filter {h : UInt64} : ∀ {L : List MzapEnt},
    (L.map MzapEnt.key).Pairwise ZapLeafEntry.Lt →
    ((L.dropWhile fun x => x.key.Lt ⟨h, 0⟩).takeWhile fun x => x.mzeHash = h) =
      L.filter (fun x => x.mzeHash = h)
  | [], _ => rfl
  | x :: rest, hs => by
    by_cases hx : x.key.Lt ⟨h, 0⟩
    · -- a node below `(h, 0)` has a smaller hash
      have hne : x.mzeHash ≠ h := UInt64.ne_of_lt hx.hash_lt_of_zero
      simp only [List.map_cons, List.pairwise_cons] at hs
      rw [List.dropWhile_cons_of_pos (by simpa using hx), walk_eq_filter hs.2,
        List.filter_cons_of_neg (by simpa using hne)]
    · rw [List.dropWhile_cons_of_neg (by simpa using hx)]
      have hxh : h ≤ x.mzeHash := UInt64.not_lt.mp fun hlt => hx (.inl hlt)
      refine takeWhile_hash_eq_filter hs fun y hy => ?_
      rcases List.mem_cons.mp hy with rfl | hy
      · exact hxh
      · simp only [List.map_cons, List.pairwise_cons, List.mem_map] at hs
        exact UInt64.le_trans hxh (hs.1 _ ⟨y, hy, rfl⟩).hash_le

end MzeAvl

/-- `mze_find` is a search of the whole tree for a node of the hash whose chunk holds the name. -/
theorem mzeFind_eq_find? (z : Mzap) (name : List UInt8) (h : UInt64) :
    mzeFind z name h = z.zapAvl.nodes.find? fun e =>
      e.mzeHash = h ∧ (z.chunk e.mzeChunkid).mzeName = name := by
  unfold mzeFind
  rw [MzeAvl.walk_eq_filter z.zapAvl.sorted, List.find?_filter]
  simp

/-! ## The store

Under the invariant a name is held by one chunk at most, and its node is the only node of the
tree whose chunk holds the name; `mzeFind_cases` is what every call reads. -/

section Store

variable {z : Mzap}

theorem Mzap.chunk_mem {i : ℕ} (hi : i < z.mzChunk.length) : z.chunk i ∈ z.mzChunk := by
  unfold Mzap.chunk
  rw [List.getD_eq_getElem _ _ hi]
  exact List.getElem_mem hi

theorem Mzap.exists_chunk_of_mem {c : MzapEntPhys} (hc : c ∈ z.mzChunk) : ∃ i, z.chunk i = c := by
  obtain ⟨i, hi, rfl⟩ := List.mem_iff_getElem.mp hc
  exact ⟨i, List.getD_eq_getElem _ _ hi⟩

theorem mzapStore_create (salt : UInt64) : MzapStore (mzapCreate salt) := by
  -- every chunk of a new object is zeroed
  have hzero : ∀ i, ((mzapCreate salt).chunk i).mzeName = [] := fun i => by
    simp [Mzap.chunk, mzapCreate, List.getD_eq_getElem?_getD, mzapEntPhysZero]
  have hopen : mzapOpenNodes (mzapCreate salt) = [] :=
    List.filterMap_eq_nil_iff.mpr fun i _ => by simp [hzero i]
  exact ⟨mzapOk_create salt, by rw [hopen]; rfl, fun i _ _ hne => absurd (hzero i) hne⟩

/-- Two nodes `mzap_open` builds whose chunks hold one name are one node. -/
theorem MzapStore.open_unique (hs : MzapStore z) {e e' : MzapEnt} (he : e ∈ mzapOpenNodes z)
    (he' : e' ∈ mzapOpenNodes z) (h : (z.chunk e.mzeChunkid).mzeName = (z.chunk e'.mzeChunkid).mzeName) :
    e = e' := by
  obtain ⟨-, hne, he⟩ := mem_mzapOpenNodes.mp he
  obtain ⟨-, -, he'⟩ := mem_mzapOpenNodes.mp he'
  rw [he, he', hs.unique _ _ h hne]

/-- **The map under the invariant**: a name has a value iff a chunk holds it. -/
theorem MzapStore.contents_eq_some_iff (hs : MzapStore z) {name : List UInt8} {v : UInt64} :
    z.contents name = some v ↔ ∃ i, (z.chunk i).mzeName = name ∧ name ≠ [] ∧ (z.chunk i).mzeValue = v := by
  -- the chunks in use that hold the name are one chunk
  have hu : ∀ c ∈ z.mzChunk.filter (fun c => c.mzeName ≠ []), ∀ d ∈ z.mzChunk.filter (fun c => c.mzeName ≠ []),
      decide (c.mzeName = name) = true → decide (d.mzeName = name) = true → c = d := by
    intro c hc d hd hcn hdn
    simp only [List.mem_filter, decide_eq_true_eq] at hc hd hcn hdn
    obtain ⟨i, rfl⟩ := Mzap.exists_chunk_of_mem hc.1
    obtain ⟨j, rfl⟩ := Mzap.exists_chunk_of_mem hd.1
    rw [hs.unique i j (hcn.trans hdn.symm) hc.2]
  unfold Mzap.contents
  rw [Option.map_eq_some_iff]
  constructor
  · rintro ⟨c, hc, rfl⟩
    obtain ⟨hmem, hcn⟩ := (find?_eq_some_iff_of_unique hu).mp hc
    simp only [List.mem_filter, decide_eq_true_eq] at hmem hcn
    obtain ⟨i, rfl⟩ := Mzap.exists_chunk_of_mem hmem.1
    exact ⟨i, hcn, hcn ▸ hmem.2, rfl⟩
  · rintro ⟨i, hi, hne, rfl⟩
    have hlt : i < z.mzChunk.length := Mzap.lt_of_mzeName_ne_nil (hi ▸ hne)
    have hmem : z.chunk i ∈ z.mzChunk.filter (fun c => c.mzeName ≠ []) :=
      List.mem_filter.mpr ⟨Mzap.chunk_mem hlt, decide_eq_true (hi ▸ hne)⟩
    exact ⟨z.chunk i, (find?_eq_some_iff_of_unique hu).mpr ⟨hmem, decide_eq_true hi⟩, rfl⟩

/-- **`mze_find` under the invariant** finds the node of the chunk that holds the name, whose
value is the map's, or nothing, when the map has none. -/
theorem MzapStore.mzeFind_cases (hs : MzapStore z) (name : List UInt8) :
    (∃ e, mzeFind z name (z.nameHash name) = some e ∧ e ∈ mzapOpenNodes z ∧
      (z.chunk e.mzeChunkid).mzeName = name ∧ z.contents name = some (z.chunk e.mzeChunkid).mzeValue) ∨
    (mzeFind z name (z.nameHash name) = none ∧ z.contents name = none) := by
  -- a node of the tree is a node `mzap_open` builds, at the hash of its chunk's name
  have hu : ∀ x ∈ z.zapAvl.nodes, ∀ y ∈ z.zapAvl.nodes,
      decide (x.mzeHash = z.nameHash name ∧ (z.chunk x.mzeChunkid).mzeName = name) = true →
        decide (y.mzeHash = z.nameHash name ∧ (z.chunk y.mzeChunkid).mzeName = name) = true →
          x = y := by
    intro x hx y hy hxn hyn
    simp only [decide_eq_true_eq] at hxn hyn
    exact hs.open_unique (hs.tree.mem_iff.mp hx) (hs.tree.mem_iff.mp hy) (hxn.2.trans hyn.2.symm)
  rw [mzeFind_eq_find?]
  cases hf : z.zapAvl.nodes.find? fun e => e.mzeHash = z.nameHash name ∧
      (z.chunk e.mzeChunkid).mzeName = name with
  | some e =>
    obtain ⟨hmem, hen⟩ := (find?_eq_some_iff_of_unique hu).mp hf
    simp only [decide_eq_true_eq] at hen
    have hopen := hs.tree.mem_iff.mp hmem
    exact .inl ⟨e, rfl, hopen, hen.2, hs.contents_eq_some_iff.mpr
      ⟨_, hen.2, hen.2 ▸ (mem_mzapOpenNodes.mp hopen).2.1, rfl⟩⟩
  | none =>
    refine .inr ⟨rfl, Option.eq_none_iff_forall_ne_some.mpr fun v hv => ?_⟩
    -- a chunk that holds the name has a node the search would have found
    obtain ⟨i, hi, hne, -⟩ := hs.contents_eq_some_iff.mp hv
    have hlt : i < z.zapNumChunks := hs.ok.chunks ▸ Mzap.lt_of_mzeName_ne_nil (hi ▸ hne)
    have hopen : z.openNode i ∈ mzapOpenNodes z := mem_mzapOpenNodes.mpr ⟨hlt, hi ▸ hne, rfl⟩
    have hfound := (find?_eq_some_iff_of_unique hu).mpr
      ⟨hs.tree.mem_iff.mpr hopen, decide_eq_true ⟨congrArg z.nameHash hi, hi⟩⟩
    rw [hf] at hfound
    cases hfound

end Store

/-! ## One write of the block

The three writes of the calls, each with the invariant and the map it leaves: a name written to
a free chunk (`mzap_addent`), a value replaced in place (`zap_update` of a name that is there),
a chunk zeroed (`zap_remove`).  Outside the chunk written, the map does not change. -/

section Writes

variable {z z' : Mzap}

/-- A write of chunk `i`, whose old and new names are `n` or none, leaves the map as it was at
every other name. -/
theorem MzapStore.contents_of_ne (hs : MzapStore z) (hs' : MzapStore z') {i : ℕ} {n m : List UInt8}
    (hother : ∀ j, j ≠ i → z'.chunk j = z.chunk j)
    (hold : (z.chunk i).mzeName = [] ∨ (z.chunk i).mzeName = n)
    (hnew : (z'.chunk i).mzeName = [] ∨ (z'.chunk i).mzeName = n) (hm : m ≠ n) :
    z'.contents m = z.contents m := by
  refine Option.ext fun v => ?_
  rw [hs'.contents_eq_some_iff, hs.contents_eq_some_iff]
  -- a chunk that holds `m` is not chunk `i`, which holds nothing or `n`
  have hnot : ∀ {y : Mzap}, ((y.chunk i).mzeName = [] ∨ (y.chunk i).mzeName = n) →
      ∀ j, (y.chunk j).mzeName = m → m ≠ [] → j ≠ i := by
    rintro y hy j hj hm0 rfl
    rcases hy with h | h
    · exact hm0 (hj ▸ h)
    · exact hm (hj ▸ h)
  constructor
  · rintro ⟨j, hj, hm0, hv⟩
    have hji := hnot hnew j hj hm0
    rw [hother j hji] at hj hv
    exact ⟨j, hj, hm0, hv⟩
  · rintro ⟨j, hj, hm0, hv⟩
    have hji := hnot hold j hj hm0
    exact ⟨j, hother j hji ▸ hj, hm0, hother j hji ▸ hv⟩

/-- A block whose chunks all read as before holds the same map. -/
theorem MzapStore.contents_congr (hs : MzapStore z) (hs' : MzapStore z')
    (h : ∀ j, z'.chunk j = z.chunk j) : z'.contents = z.contents :=
  funext fun m => Option.ext fun v => by
    simp only [hs'.contents_eq_some_iff, hs.contents_eq_some_iff, h]

/-- A write of chunk `i` keeps the names unique when no other chunk holds the name written. -/
theorem MzapStore.unique_of_write (hs : MzapStore z) {i : ℕ}
    (hother : ∀ j, j ≠ i → z'.chunk j = z.chunk j)
    (hnew : ∀ j, j ≠ i → (z.chunk j).mzeName = (z'.chunk i).mzeName → (z'.chunk i).mzeName = []) :
    ∀ j k, (z'.chunk j).mzeName = (z'.chunk k).mzeName → (z'.chunk j).mzeName ≠ [] → j = k := by
  -- a chunk other than `i` that holds the name of chunk `i` holds no name
  have hi : ∀ j, j ≠ i → (z'.chunk j).mzeName = (z'.chunk i).mzeName → (z'.chunk i).mzeName = [] :=
    fun j hj hji => hnew j hj (by rw [← hother j hj]; exact hji)
  intro j k hjk hne
  by_cases hj : j = i
  · by_cases hk : k = i
    · rw [hj, hk]
    · rw [hj] at hjk hne
      exact absurd (hi k hk hjk.symm) hne
  · by_cases hk : k = i
    · rw [hk] at hjk
      exact absurd (hjk.trans (hi j hj hjk)) hne
    · rw [hother j hj, hother k hk] at hjk
      rw [hother j hj] at hne
      exact hs.unique j k hjk hne

/-- **`mzap_addent` of a name the map does not hold** into a micro ZAP with a free chunk: the
invariant holds after it, and the map has the name's new value. -/
theorem MzapStore.addent (hs : MzapStore z) (hroom : z.zapNumEntries < z.zapNumChunks)
    {name : List UInt8} (hname : name ≠ []) (hnone : z.contents name = none) (value : UInt64) :
    ∃ z', mzapAddent z name (z.nameHash name) value = .ok z' ∧ MzapStore z' ∧
      z'.contents = Function.update z.contents name (some value) := by
  obtain ⟨i, hc, hi, hfree⟩ := mzapAddentChunk_free hs.ok hroom
  obtain ⟨t', ha⟩ := MzeAvl.add_of_fresh (e := ⟨i, z.nameHash name,
    mzeFindUnusedCd z.zapAvl.toMzapAvl (z.nameHash name)⟩) (MzeAvl.mzeFindUnusedCd_fresh hs.ok.nodes_lt)
  obtain ⟨-, hperm⟩ := MzeAvl.add_eq_some ha
  obtain ⟨z', -, hadd', ok', -⟩ := mzapAddent_fresh hs.ok hroom hname (z.nameHash name) value
  -- the micro ZAP `mzap_addent` leaves, written out
  rw [mzapAddent_eq hc ha, MzapResult.ok.injEq] at hadd'
  have hilen : i < z.mzChunk.length := hs.ok.chunks ▸ hi
  have hmz : z'.mzChunk = z.mzChunk.set i
      ⟨value, mzeFindUnusedCd z.zapAvl.toMzapAvl (z.nameHash name), name⟩ := by rw [← hadd']
  have hchunk := Mzap.chunk_of_set hilen hmz
  have hsalt : z'.mzSalt = z.mzSalt := by rw [← hadd']
  have hnew : (z'.chunk i).mzeName = name := by rw [hchunk, if_pos rfl]
  -- no other chunk holds the name
  have hfresh : ∀ j, (z.chunk j).mzeName ≠ name := fun j hj => by
    have hsome := hs.contents_eq_some_iff.mpr ⟨j, hj, hname, rfl⟩
    rw [hnone] at hsome
    cases hsome
  have hother : ∀ j, j ≠ i → z'.chunk j = z.chunk j := fun j hj => by rw [hchunk, if_neg hj]
  have hs' : MzapStore z' := by
    refine ⟨ok', ?_, hs.unique_of_write hother fun j _ hj => absurd (hj.trans hnew) (hfresh j)⟩
    -- the new node is the node of the chunk written
    have hopen := mzapOpenNodes_fill hsalt (by rw [← hadd']) hi hother hfree (hnew ▸ hname)
    have hnode : z'.openNode i =
        ⟨i, z.nameHash name, mzeFindUnusedCd z.zapAvl.toMzapAvl (z.nameHash name)⟩ := by
      rw [Mzap.openNode, Mzap.nameHash_congr hsalt, hnew, hchunk, if_pos rfl]
    have hnodes : z'.zapAvl.nodes = t'.nodes := by rw [← hadd']
    rw [hnode] at hopen
    rw [hnodes]
    exact hperm.trans ((hs.tree.cons _).trans hopen.symm)
  refine ⟨z', by rw [mzapAddent_eq hc ha, hadd'], hs', funext fun m => ?_⟩
  by_cases hm : m = name
  · subst hm
    rw [Function.update_self]
    exact hs'.contents_eq_some_iff.mpr ⟨i, hnew, hname, by rw [hchunk, if_pos rfl]⟩
  · rw [Function.update_of_ne hm]
    exact hs.contents_of_ne hs' hother (.inl hfree) (.inr hnew) hm

/-- **A value replaced in place**, in the chunk of a node `mzap_open` builds: the invariant holds
after it, and the map has the new value at the chunk's name. -/
theorem MzapStore.setValue (hs : MzapStore z) {e : MzapEnt} (he : e ∈ mzapOpenNodes z)
    (value : UInt64) :
    MzapStore { z with mzChunk := z.mzChunk.modify e.mzeChunkid fun c => { c with mzeValue := value } } ∧
      Mzap.contents { z with mzChunk := z.mzChunk.modify e.mzeChunkid fun c => { c with mzeValue := value } } =
        Function.update z.contents (z.chunk e.mzeChunkid).mzeName (some value) := by
  set z' : Mzap := { z with mzChunk := z.mzChunk.modify e.mzeChunkid fun c => { c with mzeValue := value } }
  obtain ⟨hi, hne, -⟩ := mem_mzapOpenNodes.mp he
  have hilen : e.mzeChunkid < z.mzChunk.length := hs.ok.chunks ▸ hi
  have hchunk := Mzap.chunk_of_modify hilen
    (show z'.mzChunk = z.mzChunk.modify e.mzeChunkid fun c => { c with mzeValue := value } from rfl)
  -- every chunk keeps its name and its `cd`
  have hname : ∀ j, (z'.chunk j).mzeName = (z.chunk j).mzeName := fun j => by
    rw [hchunk]
    split_ifs <;> rfl
  have hcd : ∀ j, (z'.chunk j).mzeCd = (z.chunk j).mzeCd := fun j => by
    rw [hchunk]
    split_ifs <;> rfl
  have hopen : mzapOpenNodes z' = mzapOpenNodes z :=
    List.filterMap_congr fun j _ => by
      rw [hname j, Mzap.openNode_congr (show z'.mzSalt = z.mzSalt from rfl) (hname j) (hcd j)]
  have hs' : MzapStore z' := by
    refine ⟨⟨by simp [z', hs.ok.chunks], hs.ok.size, hs.ok.size_le, ?_, hs.ok.nodes⟩,
      hopen ▸ hs.tree, fun j k hjk hne => ?_⟩
    · show z.zapNumEntries = (z.mzChunk.modify _ _).countP _
      rw [countP_mzeName_modify, hs.ok.entries]
    · rw [hname j, hname k] at hjk
      rw [hname j] at hne
      exact hs.unique j k hjk hne
  have hother : ∀ j, j ≠ e.mzeChunkid → z'.chunk j = z.chunk j := fun j hj => by rw [hchunk, if_neg hj]
  refine ⟨hs', funext fun m => ?_⟩
  by_cases hm : m = (z.chunk e.mzeChunkid).mzeName
  · subst hm
    rw [Function.update_self]
    exact hs'.contents_eq_some_iff.mpr ⟨e.mzeChunkid, hname _, hne, by rw [hchunk, if_pos rfl]⟩
  · rw [Function.update_of_ne hm]
    exact hs.contents_of_ne hs' hother (.inr rfl) (.inr (hname _)) hm

/-- **A chunk zeroed and its node removed**, as `zap_remove` does for the node `mze_find`
finds: the invariant holds after it, and the map no longer has the chunk's name. -/
theorem MzapStore.removeEnt (hs : MzapStore z) {e : MzapEnt} (heo : e ∈ mzapOpenNodes z) :
    MzapStore { z with
        zapNumEntries := z.zapNumEntries - 1
        mzChunk := z.mzChunk.set e.mzeChunkid mzapEntPhysZero
        zapAvl := z.zapAvl.remove e } ∧
      Mzap.contents { z with
          zapNumEntries := z.zapNumEntries - 1
          mzChunk := z.mzChunk.set e.mzeChunkid mzapEntPhysZero
          zapAvl := z.zapAvl.remove e } =
        Function.update z.contents (z.chunk e.mzeChunkid).mzeName none := by
  set z' : Mzap := { z with
    zapNumEntries := z.zapNumEntries - 1
    mzChunk := z.mzChunk.set e.mzeChunkid mzapEntPhysZero
    zapAvl := z.zapAvl.remove e }
  obtain ⟨hi, hne, heq⟩ := mem_mzapOpenNodes.mp heo
  have hilen : e.mzeChunkid < z.mzChunk.length := hs.ok.chunks ▸ hi
  have hchunk := Mzap.chunk_of_set hilen
    (show z'.mzChunk = z.mzChunk.set e.mzeChunkid mzapEntPhysZero from rfl)
  have hother : ∀ j, j ≠ e.mzeChunkid → z'.chunk j = z.chunk j := fun j hj => by rw [hchunk, if_neg hj]
  have hzero : (z'.chunk e.mzeChunkid).mzeName = [] := by rw [hchunk, if_pos rfl]; rfl
  -- the node removed is the node of the chunk zeroed
  have hopen : (mzapOpenNodes z).Perm (e :: mzapOpenNodes z') := by
    have hfill := mzapOpenNodes_fill (show z.mzSalt = z'.mzSalt from rfl)
      (show z.zapNumChunks = z'.zapNumChunks from rfl) hi (fun j hj => (hother j hj).symm) hzero hne
    rwa [← heq] at hfill
  have hok : MzapOk z' := by
    have hk := mzapOk_remove hs.ok hne
    rcases hs.mzeFind_cases (z.chunk e.mzeChunkid).mzeName with ⟨e', hf, he', hn', -⟩ | ⟨hf, hc⟩
    · obtain rfl : e' = e := hs.open_unique he' heo hn'
      simpa only [zapRemove, hf, MzapResult.Keeps] using hk
    · exact absurd hc (by
        rw [hs.contents_eq_some_iff.mpr ⟨_, rfl, hne, rfl⟩]
        exact Option.some_ne_none _)
  have hs' : MzapStore z' := by
    refine ⟨hok, ?_, hs.unique_of_write hother fun _ _ _ => hzero⟩
    have htree : (z.zapAvl.nodes.erase e).Perm ((e :: mzapOpenNodes z').erase e) :=
      (hs.tree.trans hopen).erase e
    rwa [List.erase_cons_head] at htree
  refine ⟨hs', funext fun m => ?_⟩
  by_cases hm : m = (z.chunk e.mzeChunkid).mzeName
  · subst hm
    rw [Function.update_self]
    refine Option.eq_none_iff_forall_ne_some.mpr fun v hv => ?_
    -- a chunk that still held the name would be a second chunk of it
    obtain ⟨j, hj, -, -⟩ := hs'.contents_eq_some_iff.mp hv
    by_cases hji : j = e.mzeChunkid
    · rw [hji, hzero] at hj
      exact hne hj.symm
    · rw [hother j hji] at hj
      exact hji (hs.unique j _ hj (hj ▸ hne))
  · rw [Function.update_of_ne hm]
    exact hs.contents_of_ne hs' hother (.inr rfl) (.inl hzero) hm

end Writes

/-! ## The calls

Each call first lets `zap_lockdir_impl` grow a full block, which appends zeroed chunks and so
changes neither the invariant nor the map; what follows is one of the writes above, or none. -/

section Calls

variable {z : Mzap}

/-- The growth of `zap_lockdir_impl` keeps the invariant and the map, and leaves a free chunk. -/
theorem MzapStore.lockdirAdding (hs : MzapStore z) {z1 : Mzap} (hl : zapLockdirAdding z = .ok z1) :
    MzapStore z1 ∧ z1.contents = z.contents ∧ z1.zapNumEntries < z1.zapNumChunks := by
  obtain ⟨ok1, hroom, hsalt, havl, -, -⟩ := zapLockdirAdding_ok hs.ok hl
  -- every chunk reads as before, and the chunks past the old block are zeroed
  obtain ⟨hchunk, hle⟩ : (∀ j, z1.chunk j = z.chunk j) ∧ z.zapNumChunks ≤ z1.zapNumChunks := by
    rcases zapLockdirAdding_spec z with ⟨-, -, h⟩ | ⟨-, -, h⟩ | ⟨-, h⟩ <;> rw [h] at hl <;> cases hl
    · have hlen := ok1.chunks
      have hlen0 := hs.ok.chunks
      simp only [List.length_append, List.length_replicate] at hlen
      refine ⟨Mzap.chunk_of_append_zero rfl, ?_⟩
      dsimp only at hlen ⊢
      omega
    · exact ⟨fun _ => rfl, le_rfl⟩
  have hopen : mzapOpenNodes z1 = mzapOpenNodes z := by
    unfold mzapOpenNodes
    rw [Slots.filterMap_range_of_none hle fun j hj => ?_]
    · exact List.filterMap_congr fun j _ => by
        rw [hchunk j, Mzap.openNode_congr hsalt (by rw [hchunk j]) (by rw [hchunk j])]
    · rw [hchunk j, Mzap.mzeName_chunk_of_le (hs.ok.chunks ▸ hj)]
      rfl
  have hs1 : MzapStore z1 := by
    refine ⟨ok1, ?_, fun j k hjk hne => ?_⟩
    · rw [havl, hopen]
      exact hs.tree
    · rw [hchunk j, hchunk k] at hjk
      rw [hchunk j] at hne
      exact hs.unique j k hjk hne
  exact ⟨hs1, hs.contents_congr hs1 hchunk, hroom⟩

/-- **`zap_add`** of a non-empty name: the name's value is added if the map has none, and the
map is left as it is if it has one (`EEXIST`) or if the micro ZAP is upgraded. -/
theorem MzapStore.add_refines (hs : MzapStore z) {key : List UInt8} (hkey : key ≠ [])
    (integerSize numIntegers : ℕ) (value : UInt64) :
    (zapAdd z key integerSize numIntegers value).Refines z.contents
      ((MzapCall.add key integerSize numIntegers value).apply z.contents) := by
  unfold zapAdd
  rcases zapLockdirAdding_cases z with hl | ⟨z1, hl, -⟩
  · rw [hl]
    exact ⟨hs, rfl⟩
  · obtain ⟨hs1, hc1, hroom1⟩ := hs.lockdirAdding hl
    rw [hl]
    dsimp only
    split_ifs
    · exact ⟨hs1, hc1⟩
    · rcases hs1.mzeFind_cases key with ⟨e, hf, -, -, hc⟩ | ⟨hf, hc⟩
      · rw [hc1] at hc
        rw [hf]
        exact ⟨hs1, by simp [MzapCall.apply, hc, hc1]⟩
      · obtain ⟨z', hadd, hs', hc'⟩ := hs1.addent hroom1 hkey hc value
        rw [hc1] at hc
        rw [hf, hadd]
        exact ⟨hs', by simp [MzapCall.apply, hc, hc', hc1]⟩

/-- **`zap_update`** of a non-empty name sets its value, in place if a chunk holds the name. -/
theorem MzapStore.update_refines (hs : MzapStore z) {name : List UInt8} (hname : name ≠ [])
    (integerSize numIntegers : ℕ) (value : UInt64) :
    (zapUpdate z name integerSize numIntegers value).Refines z.contents
      ((MzapCall.update name integerSize numIntegers value).apply z.contents) := by
  unfold zapUpdate
  rcases zapLockdirAdding_cases z with hl | ⟨z1, hl, -⟩
  · rw [hl]
    exact ⟨hs, rfl⟩
  · obtain ⟨hs1, hc1, hroom1⟩ := hs.lockdirAdding hl
    rw [hl]
    dsimp only
    split_ifs
    · exact ⟨hs1, hc1⟩
    · rcases hs1.mzeFind_cases name with ⟨e, hf, he, hn, -⟩ | ⟨hf, hc⟩
      · obtain ⟨hs', hc'⟩ := hs1.setValue he value
        rw [hf]
        exact ⟨hs', by rw [hc', hn, hc1]; rfl⟩
      · obtain ⟨z', hadd, hs', hc'⟩ := hs1.addent hroom1 hname hc value
        rw [hf, hadd]
        exact ⟨hs', by rw [hc', hc1]; rfl⟩

/-- **`zap_remove`** erases the name from the map, and a name the map does not hold is `ENOENT`
with nothing changed. -/
theorem MzapStore.remove_refines (hs : MzapStore z) (name : List UInt8) :
    (zapRemove z name).Refines z.contents ((MzapCall.remove name).apply z.contents) := by
  unfold zapRemove
  rcases hs.mzeFind_cases name with ⟨e, hf, he, hn, -⟩ | ⟨hf, hc⟩
  · obtain ⟨hs', hc'⟩ := hs.removeEnt he
    rw [hf]
    exact ⟨hs', by rw [hc', hn]; rfl⟩
  · rw [hf]
    exact ⟨hs, by simp [MzapCall.apply, hc]⟩

/-- **Every call** on a non-empty name refines its action on the map. -/
theorem MzapStore.call_refines (hs : MzapStore z) {c : MzapCall} (hc : c.name ≠ []) :
    (c.run z).Refines z.contents (c.apply z.contents) := by
  cases c with
  | add key integerSize numIntegers value => exact hs.add_refines hc integerSize numIntegers value
  | update name integerSize numIntegers value =>
    exact hs.update_refines hc integerSize numIntegers value
  | remove name => exact hs.remove_refines name

end Calls

/-! ## Lookup

`zap_lookup` reads the map through `mze_find`; a witness on a micro ZAP that holds an entry comes
from the store that one `zap_add` leaves. -/

/-- **`zap_lookup` and `zap_contains` read the map.** -/
theorem zapLookup_refines_contents {z : Mzap} (hs : MzapStore z) (name : List UInt8)
    (integerSize numIntegers : ℕ) :
    zapLookup z name integerSize numIntegers =
        (match z.contents name with
          | none => .error .enoent
          | some v =>
            if numIntegers < 1 then .error .eoverflow
            else if integerSize ≠ 8 then .error .einval
            else .ok v) ∧
      zapContains z name = if z.contents name = none then .error .enoent else .ok () := by
  rcases hs.mzeFind_cases name with ⟨e, hf, -, -, hc⟩ | ⟨hf, hc⟩
  · refine ⟨by simp only [zapLookup, hf, hc], ?_⟩
    simp [zapContains, zapLookup, hf, hc]
  · refine ⟨by simp only [zapLookup, hf, hc], ?_⟩
    simp [zapContains, zapLookup, hf, hc]

/-- The micro ZAP a `zap_add` of the name `a` with value `5` leaves in a new object. -/
def mzapOneEntry : Mzap :=
  match zapAdd (mzapCreate 0) [0x61] 8 1 5 with
  | .ok z => z
  | _ => mzapCreate 0

theorem zapAdd_create_one : zapAdd (mzapCreate 0) [0x61] 8 1 5 = .ok mzapOneEntry := rfl

theorem mzapStore_one_entry : MzapStore mzapOneEntry := by
  have h := (mzapStore_create 0).add_refines
    (show ([0x61] : List UInt8) ≠ [] from List.cons_ne_nil _ _) 8 1 5
  rw [zapAdd_create_one] at h
  exact h.1

theorem zapLookup_refines_contents_one :
    MzapStore mzapOneEntry ∧
      (zapLookup mzapOneEntry [0x61] 8 1 =
          (match mzapOneEntry.contents [0x61] with
            | none => .error .enoent
            | some v =>
              if 1 < 1 then .error .eoverflow
              else if 8 ≠ 8 then .error .einval
              else .ok v) ∧
        zapContains mzapOneEntry [0x61] =
          if mzapOneEntry.contents [0x61] = none then .error .enoent else .ok ()) :=
  ⟨mzapStore_one_entry, zapLookup_refines_contents mzapStore_one_entry [0x61] 8 1⟩

/-- There the lookup finds the value. -/
example : zapLookup mzapOneEntry [0x61] 8 1 = .ok 5 := by decide

/-! ## Runs -/

/-- How a run of `calls` on a micro ZAP holding `m` ends, against the map: the micro ZAP it
leaves keeps the invariant and holds the fold of the calls over `m`; one it upgrades keeps it and
holds the fold of the calls before the one that upgraded; it ends in nothing else. -/
def MzapResult.RunRefines (m : List UInt8 → Option UInt64) (calls : List MzapCall) :
    MzapResult → Prop
  | .ok z => MzapStore z ∧ z.contents = calls.foldl MzapCall.apply m
  | .upgrade z => ∃ pre c post, calls = pre ++ c :: post ∧ MzapStore z ∧
      z.contents = pre.foldl MzapCall.apply m
  | _ => False

/-- A run that refines the map the first call leaves refines the map before it. -/
theorem MzapResult.RunRefines.cons {m : List UInt8 → Option UInt64} {c : MzapCall}
    {cs : List MzapCall} {r : MzapResult} (h : r.RunRefines (c.apply m) cs) :
    r.RunRefines m (c :: cs) := by
  cases r with
  | ok z => exact h
  | upgrade z =>
    obtain ⟨pre, c', post, rfl, hs, hc⟩ := h
    exact ⟨c :: pre, c', post, rfl, hs, hc⟩
  | eexist z | enoent z | panic => exact h.elim

/-- Runs refine the map, by induction on the calls: each call keeps the invariant and acts on
the map as `MzapCall.apply` says. -/
theorem MzapStore.run_refines {z : Mzap} (hs : MzapStore z) :
    ∀ {calls : List MzapCall}, (∀ c ∈ calls, c.name ≠ []) →
      (mzapRun z calls).RunRefines z.contents calls
  | [], _ => ⟨hs, rfl⟩
  | c :: cs, hnames => by
    have hc := hs.call_refines (hnames c List.mem_cons_self)
    have hrest : ∀ c ∈ cs, c.name ≠ [] := fun c' hc' => hnames c' (List.mem_cons_of_mem _ hc')
    unfold mzapRun
    cases hr : c.run z with
    | ok z' | eexist z' | enoent z' =>
      rw [hr] at hc
      obtain ⟨hs', hc'⟩ := hc
      have ih := hs'.run_refines hrest
      rw [hc'] at ih
      exact ih.cons
    | upgrade z' =>
      rw [hr] at hc
      exact ⟨[], c, cs, rfl, hc⟩
    | panic =>
      rw [hr] at hc
      exact hc.elim

/-- **A micro ZAP is a map, over every run of calls on non-empty names**: the micro ZAP a run
leaves keeps the invariant and holds the fold of the calls over the map it started from; one
that a call upgrades holds the fold of the calls before that call, the entries `mzap_upgrade`
then moves; and no run panics. -/
theorem mzapRun_refines_map {z : Mzap} (hs : MzapStore z) {calls : List MzapCall}
    (hnames : ∀ c ∈ calls, c.name ≠ []) :
    (∀ z', mzapRun z calls = .ok z' →
        MzapStore z' ∧ z'.contents = calls.foldl MzapCall.apply z.contents) ∧
      (∀ z', mzapRun z calls = .upgrade z' → ∃ pre c post, calls = pre ++ c :: post ∧
        MzapStore z' ∧ z'.contents = pre.foldl MzapCall.apply z.contents) ∧
      ∃ z', mzapRun z calls = .ok z' ∨ mzapRun z calls = .upgrade z' := by
  have h := hs.run_refines hnames
  cases hr : mzapRun z calls with
  | ok z' =>
    rw [hr] at h
    refine ⟨fun z'' he => ?_, fun z'' he => ?_, z', Or.inl rfl⟩
    · cases he
      exact h
    · cases he
  | upgrade z' =>
    rw [hr] at h
    refine ⟨fun z'' he => ?_, fun z'' he => ?_, z', Or.inr rfl⟩
    · cases he
    · cases he
      exact h
  | eexist z' | enoent z' | panic =>
    rw [hr] at h
    exact h.elim

theorem mzapRun_refines_map_create :
    MzapStore (mzapCreate 0) ∧ (∀ c ∈ [MzapCall.add [0x61] 8 1 5], c.name ≠ []) ∧
      (∀ z', mzapRun (mzapCreate 0) [.add [0x61] 8 1 5] = .ok z' →
          MzapStore z' ∧
            z'.contents = [MzapCall.add [0x61] 8 1 5].foldl MzapCall.apply (mzapCreate 0).contents) ∧
        (∀ z', mzapRun (mzapCreate 0) [.add [0x61] 8 1 5] = .upgrade z' →
          ∃ pre c post, [MzapCall.add [0x61] 8 1 5] = pre ++ c :: post ∧ MzapStore z' ∧
            z'.contents = pre.foldl MzapCall.apply (mzapCreate 0).contents) ∧
        ∃ z', mzapRun (mzapCreate 0) [.add [0x61] 8 1 5] = .ok z' ∨
          mzapRun (mzapCreate 0) [.add [0x61] 8 1 5] = .upgrade z' :=
  ⟨mzapStore_create 0, by decide, mzapRun_refines_map (mzapStore_create 0) (by decide)⟩

end Zfs
