import Zfs.Nvpair.Native

/-!
# Nvpair/Add — `nvlist_add_common` when an allocation fails

    checks ──▸ nvp_buf_alloc ──▸ copy embedded ──▸ remove the name ──▸ nvt_add_nvpair ──▸ link

Every allocation an nvlist makes comes from its allocator, and `nv_alloc_nosleep` returns `NULL`
under memory pressure.  The steps up to the copy of embedded lists write only the new pair, so they
fail with the list as it was.  Under a uniqueness flag the pairs of the name are then removed and
freed, and only after that does `nvt_add_nvpair` index the new pair; it allocates too, a first
table, the smaller table of a due shrink in its own `nvt_remove_nvpair`, or the larger table of a
due growth, and when it fails the add returns the error with the removed pairs gone.

* `nvtAddNvpairA_nvpList` — indexing a pair never changes the list of pairs;
* `nvlistAddCommonA_error_of_lookup_none` — a failed add that had nothing to replace leaves the
  pairs as they were;
* `nvlistAddCommonA_of_allocOk` — when every allocation succeeds the add is `nvlistAddCommon`;
* **`nvlistAddCommonA_spec`** — both together: the add the index results are about, and the pairs
  kept by a failure with nothing to replace;
* `nvlistAddCommonA_enomem_frees_pair` — a unique-name list of nine pairs in 32 buckets loses its
  pair `"a"` to an add of `"a"` that fails with `ENOMEM`.
-/

namespace Zfs

/-! ## The allocator and the calls that use it -/

/-- `ENOMEM`. -/
def enomem : ℤ := 12

/-- The answers of an nvlist's allocator to its successive `nv_ao_alloc` calls: `false` where it
returns `NULL`.  Once the answers run out every allocation succeeds. -/
abbrev NvAlloc := List Bool

/-- `nv_mem_zalloc(priv, size)`: whether the allocator gives memory, and the answers left. -/
def nvMemZalloc : NvAlloc → Bool × NvAlloc
  | [] => (true, [])
  | ok :: a => (ok, a)

/-- What a call that changes an nvlist leaves: its return value (`0` for success), the list, and
the allocator's answers it did not use. -/
structure NvRet where
  err : ℤ
  priv : NvPriv
  alloc : NvAlloc

/-- The rest of a call after a step that may fail, which returns at once if the step did. -/
def NvRet.next (r : NvRet) (k : NvPriv → NvAlloc → NvRet) : NvRet :=
  if r.err = 0 then k r.priv r.alloc else r

/-- A step that allocates and then changes the list by `f`: it fails with `ENOMEM` and changes
nothing when the allocator returns `NULL`. -/
def nvAllocThen (priv : NvPriv) (a : NvAlloc) (f : NvPriv → NvPriv) : NvRet :=
  match nvMemZalloc a with
  | (true, a) => ⟨0, f priv, a⟩
  | (false, a) => ⟨enomem, priv, a⟩

/-- `nvt_remove_nvpair(nvl, nvp)`: a due shrink allocates the smaller table first. -/
def nvtRemoveNvpairA (priv : NvPriv) (nvp : NvPair) (a : NvAlloc) : NvRet :=
  if nvtNeedsToshrink priv then nvAllocThen priv a (nvtRemoveNvpair · nvp)
  else ⟨0, nvtRemoveNvpair priv nvp, a⟩

/-- `nvt_add_nvpair(nvl, nvp)`: allocate the table on first use (`nvt_tab_alloc`), unlink a
match under a uniqueness flag, grow if due (`nvt_grow`), and push the pair on its chain. -/
def nvtAddNvpairA (priv : NvPriv) (nvp : NvPair) (a : NvAlloc) : NvRet :=
  (match priv.nvpHashtable with
    | none => nvAllocThen priv a fun priv =>
      { priv with nvpHashtable := some fun _ => [], nvpNbuckets := nvlistHashtableInitSize }
    | some _ => ⟨0, priv, a⟩).next fun priv a =>
  (if priv.nvflag != 0 then nvtRemoveNvpairA priv nvp a else ⟨0, priv, a⟩).next fun priv a =>
  (if nvtNeedsTogrow priv then nvAllocThen priv a fun priv => nvtResize priv (priv.nvpNbuckets <<< 1)
    else ⟨0, priv, a⟩).next fun priv a =>
  match priv.nvpHashtable with
  | none => ⟨0, priv, a⟩
  | some tab =>
    let index := nvtIndex nvp.name priv.nvpNbuckets
    ⟨0, { priv with
      nvpHashtable := some (Function.update tab index (nvp :: tab index))
      nvpNentries := priv.nvpNentries + 1 }, a⟩

/-- `nvlist_remove_nvpair(nvl, nvp)`: off the table, and only then off the list. -/
def nvlistRemoveNvpairA (priv : NvPriv) (nvp : NvPair) (a : NvAlloc) : NvRet :=
  (nvtRemoveNvpairA priv nvp a).next fun priv a => ⟨0, nvpBufUnlink priv nvp, a⟩

/-- `nvlist_remove_all(nvl, name)`, with the turns bounded as in `nvlistRemoveAll`; `none` where
the `VERIFY0` of a removal fails. -/
def nvlistRemoveAllA (priv : NvPriv) (name : List UInt8) : ℕ → NvAlloc → Option (NvPriv × NvAlloc)
  | 0, a => some (priv, a)
  | n + 1, a =>
    match nvtLookupNameType priv name none with
    | none => some (priv, a)
    | some nvp =>
      let r := nvlistRemoveNvpairA priv nvp a
      if r.err = 0 then nvlistRemoveAllA r.priv name n r.alloc else none

/-- The removal `nvlist_add_common` makes before it adds: `nvlist_remove_all(nvl, name)` under
`NV_UNIQUE_NAME`, `nvlist_remove(nvl, name, type)` under `NV_UNIQUE_NAME_TYPE`, both with their
return value dropped. -/
def nvlistAddRemoveA (priv : NvPriv) (nvp : NvPair) (a : NvAlloc) : Option (NvPriv × NvAlloc) :=
  if priv.nvflag &&& nvUniqueName != 0 then
    nvlistRemoveAllA priv nvp.name priv.nvpNentries.toNat a
  else if priv.nvflag &&& nvUniqueNameType != 0 then
    match nvtLookupNameType priv nvp.name (some nvp.type) with
    | none => some (priv, a)
    | some q =>
      let r := nvlistRemoveNvpairA priv q a
      some (r.priv, r.alloc)
  else some (priv, a)

/-- The arguments of `nvlist_add_common(nvl, name, type, nelem, data)` as the steps before the
removal read them: whether `nelem`, the value, its size, its embedded lists and the length of the
name pass the checks, the new pair, and the copy of its embedded lists (`nvlist_copy_embedded`),
which allocates from the list's allocator into the new pair only and returns its error and the
answers it did not use. -/
structure NvAddArgs where
  valid : Bool
  nvp : NvPair
  copyEmbedded : NvAlloc → ℤ × NvAlloc

/-- `nvlist_add_common(nvl, name, type, nelem, data)`; `none` where a `VERIFY0` fails. -/
def nvlistAddCommonA (priv : NvPriv) (args : NvAddArgs) (a : NvAlloc) : Option NvRet :=
  if !args.valid then some ⟨einval, priv, a⟩ else
  -- `nvp_buf_alloc`
  match nvMemZalloc a with
  | (false, a) => some ⟨enomem, priv, a⟩
  | (true, a) =>
    match args.copyEmbedded a with
    | (0, a) =>
      (nvlistAddRemoveA priv args.nvp a).map fun (priv, a) =>
        (nvtAddNvpairA priv args.nvp a).next fun priv a => ⟨0, nvpBufLink priv args.nvp, a⟩
    | (err, a) => some ⟨err, priv, a⟩

/-! ## Steps that fail change nothing -/

@[simp] theorem NvRet.next_of_ok {r : NvRet} (h : r.err = 0) (k : NvPriv → NvAlloc → NvRet) :
    r.next k = k r.priv r.alloc := by
  simp [NvRet.next, h]

@[simp] theorem NvRet.next_of_error {r : NvRet} (h : r.err ≠ 0) (k : NvPriv → NvAlloc → NvRet) :
    r.next k = r := by
  simp [NvRet.next, h]

theorem nvAllocThen_eq (priv : NvPriv) (a : NvAlloc) (f : NvPriv → NvPriv) :
    nvAllocThen priv a f =
      if (nvMemZalloc a).1 then ⟨0, f priv, (nvMemZalloc a).2⟩ else ⟨enomem, priv, (nvMemZalloc a).2⟩ := by
  unfold nvAllocThen
  split <;> simp_all

/-- A step whose change keeps the pairs keeps them whether or not its allocation succeeds. -/
theorem nvAllocThen_nvpList {priv : NvPriv} {f : NvPriv → NvPriv}
    (hf : (f priv).nvpList = priv.nvpList) (a : NvAlloc) :
    (nvAllocThen priv a f).priv.nvpList = priv.nvpList := by
  rw [nvAllocThen_eq]
  split <;> simp [hf]

/-- When the rest of a call cannot fail, an error of the call is the step's. -/
theorem NvRet.next_eq_of_error {r : NvRet} {k : NvPriv → NvAlloc → NvRet}
    (hk : ∀ priv a, (k priv a).err = 0) (h : (r.next k).err ≠ 0) : r.next k = r := by
  unfold NvRet.next at *
  split
  · simp_all
  · rfl

/-- The rest of a call keeps the pairs if both the step and what follows keep them. -/
theorem NvRet.next_nvpList {r : NvRet} {k : NvPriv → NvAlloc → NvRet} {l : List NvPair}
    (hr : r.priv.nvpList = l) (hk : ∀ priv a, priv.nvpList = l → (k priv a).priv.nvpList = l) :
    (r.next k).priv.nvpList = l := by
  unfold NvRet.next
  split
  · exact hk _ _ hr
  · exact hr

@[simp] theorem nvtResize_nvpList (priv : NvPriv) (newSize : UInt32) :
    (nvtResize priv newSize).nvpList = priv.nvpList := by
  unfold nvtResize
  split <;> rfl

@[simp] theorem nvtRemoveNvpair_nvpList (priv : NvPriv) (nvp : NvPair) :
    (nvtRemoveNvpair priv nvp).nvpList = priv.nvpList := by
  unfold nvtRemoveNvpair
  split_ifs <;> dsimp only <;> split <;> (try split) <;> simp

theorem nvtRemoveNvpairA_nvpList (priv : NvPriv) (nvp : NvPair) (a : NvAlloc) :
    (nvtRemoveNvpairA priv nvp a).priv.nvpList = priv.nvpList := by
  unfold nvtRemoveNvpairA
  split
  · exact nvAllocThen_nvpList (nvtRemoveNvpair_nvpList priv nvp) a
  · exact nvtRemoveNvpair_nvpList priv nvp

/-- **Indexing a pair never changes the list of pairs**: whatever `nvt_add_nvpair` allocates and
whether it fails, only the table changes. -/
theorem nvtAddNvpairA_nvpList (priv : NvPriv) (nvp : NvPair) (a : NvAlloc) :
    (nvtAddNvpairA priv nvp a).priv.nvpList = priv.nvpList := by
  unfold nvtAddNvpairA
  refine NvRet.next_nvpList ?_ fun priv₁ a₁ h₁ => ?_
  · split
    · exact nvAllocThen_nvpList rfl a
    · rfl
  refine NvRet.next_nvpList ?_ fun priv₂ a₂ h₂ => ?_
  · split
    · rw [nvtRemoveNvpairA_nvpList, h₁]
    · exact h₁
  refine NvRet.next_nvpList ?_ fun priv₃ a₃ h₃ => ?_
  · split
    · rw [nvAllocThen_nvpList (nvtResize_nvpList _ _), h₂]
    · exact h₂
  split
  · exact h₃
  · exact h₃

/-! ## When every allocation succeeds

With an allocator that never returns `NULL` each call is the one of `Nvpair/Table`, which models
the list without allocation failures. -/

theorem nvMemZalloc_of_allocOk {a : NvAlloc} (ha : false ∉ a) : nvMemZalloc a = (true, a.tail) := by
  cases a with
  | nil => rfl
  | cons b a => cases b <;> simp_all [nvMemZalloc]

theorem allocOk_tail {a : NvAlloc} (ha : false ∉ a) : false ∉ a.tail :=
  fun h => ha (List.mem_of_mem_tail h)

/-- A call that returns `0` with the list `priv` and leaves an allocator that still never fails. -/
def NvRet.SucceedsAs (r : NvRet) (priv : NvPriv) : Prop :=
  r.err = 0 ∧ r.priv = priv ∧ false ∉ r.alloc

theorem NvRet.next_of_succeedsAs {r : NvRet} {priv : NvPriv} (h : r.SucceedsAs priv)
    (k : NvPriv → NvAlloc → NvRet) : r.next k = k priv r.alloc := by
  rw [NvRet.next_of_ok h.1, h.2.1]

/-- A stage that runs only under a condition succeeds as its counterpart when it does. -/
theorem NvRet.succeedsAs_ite {c : Prop} [Decidable c] {r : NvRet} {p q : NvPriv} {a : NvAlloc}
    (hr : c → r.SucceedsAs q) (ha : false ∉ a) :
    (if c then r else ⟨0, p, a⟩).SucceedsAs (if c then q else p) := by
  split
  · exact hr ‹_›
  · exact ⟨rfl, rfl, ha⟩

theorem NvRet.next_succeedsAs {r : NvRet} {p q : NvPriv} (hr : r.SucceedsAs p)
    {k : NvPriv → NvAlloc → NvRet} (hk : ∀ a, false ∉ a → (k p a).SucceedsAs q) :
    (r.next k).SucceedsAs q := by
  rw [NvRet.next_of_succeedsAs hr]
  exact hk _ hr.2.2

theorem nvAllocThen_of_allocOk {a : NvAlloc} (ha : false ∉ a) (priv : NvPriv) (f : NvPriv → NvPriv) :
    (nvAllocThen priv a f).SucceedsAs (f priv) := by
  simp only [nvAllocThen_eq, nvMemZalloc_of_allocOk ha, if_true]
  exact ⟨rfl, rfl, allocOk_tail ha⟩

theorem nvtRemoveNvpairA_of_allocOk {a : NvAlloc} (ha : false ∉ a) (priv : NvPriv) (nvp : NvPair) :
    (nvtRemoveNvpairA priv nvp a).SucceedsAs (nvtRemoveNvpair priv nvp) := by
  unfold nvtRemoveNvpairA
  split
  · exact nvAllocThen_of_allocOk ha _ _
  · exact ⟨rfl, rfl, ha⟩

theorem nvtAddNvpairA_of_allocOk {a : NvAlloc} (ha : false ∉ a) (priv : NvPriv) (nvp : NvPair) :
    (nvtAddNvpairA priv nvp a).SucceedsAs (nvtAddNvpair priv nvp) := by
  unfold nvtAddNvpairA nvtAddNvpair
  -- the first table: both sides take the branch of `priv.nvpHashtable`
  split <;> rename_i htab <;> simp only [htab]
  all_goals
    refine NvRet.next_succeedsAs (by first
      | exact nvAllocThen_of_allocOk ha _ _
      | exact (⟨rfl, rfl, ha⟩ : NvRet.SucceedsAs ⟨0, priv, a⟩ priv)) fun a₁ ha₁ => ?_
    -- the unlink of a match, with its shrink, then the growth
    refine NvRet.next_succeedsAs (NvRet.succeedsAs_ite
      (fun _ => nvtRemoveNvpairA_of_allocOk ha₁ _ nvp) ha₁) fun a₂ ha₂ => ?_
    refine NvRet.next_succeedsAs (NvRet.succeedsAs_ite
      (fun _ => nvAllocThen_of_allocOk ha₂ _ _) ha₂) fun a₃ ha₃ => ?_
    split <;> simp_all [NvRet.SucceedsAs]

theorem nvlistRemoveNvpairA_of_allocOk {a : NvAlloc} (ha : false ∉ a) (priv : NvPriv) (nvp : NvPair) :
    (nvlistRemoveNvpairA priv nvp a).SucceedsAs (nvlistRemoveNvpair priv nvp) := by
  have h := nvtRemoveNvpairA_of_allocOk ha priv nvp
  rw [nvlistRemoveNvpairA, NvRet.next_of_succeedsAs h]
  exact ⟨rfl, rfl, h.2.2⟩

theorem nvlistRemoveAllA_of_allocOk (name : List UInt8) :
    ∀ (n : ℕ) (priv : NvPriv) (a : NvAlloc), false ∉ a →
      ∃ a', nvlistRemoveAllA priv name n a = some (nvlistRemoveAll priv name n, a') ∧ false ∉ a'
  | 0, priv, a, ha => ⟨a, rfl, ha⟩
  | n + 1, priv, a, ha => by
    cases hl : nvtLookupNameType priv name none with
    | none => exact ⟨a, by simp [nvlistRemoveAllA, nvlistRemoveAll, hl], ha⟩
    | some nvp =>
      obtain ⟨h0, hp, ha₁⟩ := nvlistRemoveNvpairA_of_allocOk ha priv nvp
      obtain ⟨a', h, ha'⟩ := nvlistRemoveAllA_of_allocOk name n (nvlistRemoveNvpair priv nvp) _ ha₁
      refine ⟨a', ?_, ha'⟩
      simp only [nvlistRemoveAllA, nvlistRemoveAll, hl, h0, if_true, hp, h]

/-- **When every allocation succeeds the add is `nvlistAddCommon`**, for arguments that pass the
checks and whose embedded lists copy whenever the allocator gives memory. -/
theorem nvlistAddCommonA_of_allocOk {priv : NvPriv} {args : NvAddArgs} {a : NvAlloc}
    (hvalid : args.valid = true)
    (hcopy : ∀ a, false ∉ a → ∃ a', args.copyEmbedded a = (0, a') ∧ false ∉ a') (ha : false ∉ a) :
    ∃ r, nvlistAddCommonA priv args a = some r ∧ r.SucceedsAs (nvlistAddCommon priv args.nvp) := by
  obtain ⟨a₁, hc, ha₁⟩ := hcopy _ (allocOk_tail ha)
  -- the removal, as `nvlistAddCommon` makes it, and the answers it leaves
  obtain ⟨priv₁, a₂, hrem, hpriv₁, ha₂⟩ : ∃ priv₁ a₂,
      nvlistAddRemoveA priv args.nvp a₁ = some (priv₁, a₂) ∧
      priv₁ = (if priv.nvflag &&& nvUniqueName != 0 then
          nvlistRemoveAll priv args.nvp.name priv.nvpNentries.toNat
        else if priv.nvflag &&& nvUniqueNameType != 0 then
          (nvlistRemove priv args.nvp.name args.nvp.type).getD priv
        else priv) ∧ false ∉ a₂ := by
    unfold nvlistAddRemoveA nvlistRemove
    split_ifs
    · obtain ⟨a₂, h, ha₂⟩ := nvlistRemoveAllA_of_allocOk args.nvp.name _ priv a₁ ha₁
      exact ⟨_, a₂, h, rfl, ha₂⟩
    · split
      · rename_i hl
        exact ⟨priv, a₁, rfl, by rw [hl]; rfl, ha₁⟩
      · rename_i q hl
        obtain ⟨-, hp, ha₂⟩ := nvlistRemoveNvpairA_of_allocOk ha₁ priv q
        exact ⟨_, _, rfl, by rw [hl, hp]; rfl, ha₂⟩
    · exact ⟨priv, a₁, rfl, rfl, ha₁⟩
  have hadd := nvtAddNvpairA_of_allocOk ha₂ priv₁ args.nvp
  refine ⟨⟨0, nvpBufLink (nvtAddNvpair priv₁ args.nvp) args.nvp, (nvtAddNvpairA priv₁ args.nvp a₂).alloc⟩,
    ?_, rfl, by rw [nvlistAddCommon, ← hpriv₁], hadd.2.2⟩
  simp only [nvlistAddCommonA, hvalid, Bool.not_true, Bool.false_eq_true, if_false,
    nvMemZalloc_of_allocOk ha, hc, hrem, Option.map_some, NvRet.next_of_succeedsAs hadd]

/-! ## A failed add with nothing to replace -/

/-- A name the table does not find is not found with a type either. -/
theorem nvtLookupNameType_some_of_none {priv : NvPriv} {name : List UInt8} (type : DataType)
    (h : nvtLookupNameType priv name none = none) : nvtLookupNameType priv name (some type) = none := by
  unfold nvtLookupNameType at *
  split
  · rfl
  · simp_all [List.find?_eq_none]

/-- The removal before the add changes nothing when the table does not find the name. -/
theorem nvlistAddRemoveA_of_lookup_none {priv : NvPriv} {nvp : NvPair}
    (h : nvtLookupNameType priv nvp.name none = none) (a : NvAlloc) :
    nvlistAddRemoveA priv nvp a = some (priv, a) := by
  have hall : ∀ n, nvlistRemoveAllA priv nvp.name n a = some (priv, a) := by
    rintro (_ | n)
    · rfl
    · simp [nvlistRemoveAllA, h]
  unfold nvlistAddRemoveA
  split_ifs
  · exact hall _
  · simp [nvtLookupNameType_some_of_none nvp.type h]
  · rfl

/-- **A failed add that had nothing to replace leaves the pairs as they were.** -/
theorem nvlistAddCommonA_error_of_lookup_none {priv : NvPriv} {args : NvAddArgs} {a : NvAlloc}
    {r : NvRet} (hnone : nvtLookupNameType priv args.nvp.name none = none)
    (h : nvlistAddCommonA priv args a = some r) (herr : r.err ≠ 0) : r.priv.nvpList = priv.nvpList := by
  unfold nvlistAddCommonA at h
  split_ifs at h
  · cases h
    rfl
  split at h
  · cases h
    rfl
  split at h
  · rw [nvlistAddRemoveA_of_lookup_none hnone, Option.map_some, Option.some_inj] at h
    subst h
    -- the link runs only after `nvt_add_nvpair` succeeded, so the error is that call's
    dsimp only at herr ⊢
    rw [NvRet.next_eq_of_error (fun _ _ => rfl) herr, nvtAddNvpairA_nvpList]
  · cases h
    rfl

/-! ## The add under an allocator that may fail -/

/-- **`nvlist_add_common` under an allocator that may return `NULL`**: where every allocation
succeeds (as under `KM_SLEEP`) the add of a valid pair whose embedded lists copy is the add that
the index results are stated for, and an add that fails while nothing of the name was there leaves
the pairs as they were. -/
theorem nvlistAddCommonA_spec (priv : NvPriv) (args : NvAddArgs) :
    (args.valid = true → (∀ a, false ∉ a → ∃ a', args.copyEmbedded a = (0, a') ∧ false ∉ a') →
      ∀ a, false ∉ a → ∃ r, nvlistAddCommonA priv args a = some r ∧
        r.SucceedsAs (nvlistAddCommon priv args.nvp)) ∧
    (nvtLookupNameType priv args.nvp.name none = none → ∀ a r,
      nvlistAddCommonA priv args a = some r → r.err ≠ 0 → r.priv.nvpList = priv.nvpList) :=
  ⟨fun hvalid hcopy _ ha => nvlistAddCommonA_of_allocOk hvalid hcopy ha,
    fun hnone _ _ h herr => nvlistAddCommonA_error_of_lookup_none hnone h herr⟩

/-- The add of a pair `"a"` with no embedded list. -/
def nvFirstAdd : NvAddArgs := ⟨true, ⟨1, [0x61], .uint64⟩, fun a => (0, a)⟩

/-- The first add of `"a"` to a new unique-name list. -/
theorem nvlistAddCommonA_spec_first :
    nvFirstAdd.valid = true ∧
      (∀ a, false ∉ a → ∃ a', nvFirstAdd.copyEmbedded a = (0, a') ∧ false ∉ a') ∧
      nvtLookupNameType (nvlistAlloc 1) nvFirstAdd.nvp.name none = none ∧
      ((∀ a, false ∉ a → ∃ r, nvlistAddCommonA (nvlistAlloc 1) nvFirstAdd a = some r ∧
          r.SucceedsAs (nvlistAddCommon (nvlistAlloc 1) nvFirstAdd.nvp)) ∧
        (∀ a r, nvlistAddCommonA (nvlistAlloc 1) nvFirstAdd a = some r →
          r.err ≠ 0 → r.priv.nvpList = (nvlistAlloc 1).nvpList)) := by
  have hvalid : nvFirstAdd.valid = true := rfl
  have hcopy : ∀ a, false ∉ a → ∃ a', nvFirstAdd.copyEmbedded a = (0, a') ∧ false ∉ a' :=
    fun a ha => ⟨a, rfl, ha⟩
  have hnone : nvtLookupNameType (nvlistAlloc 1) nvFirstAdd.nvp.name none = none := rfl
  have hspec := nvlistAddCommonA_spec (nvlistAlloc 1) nvFirstAdd
  exact ⟨hvalid, hcopy, hnone, hspec.1 hvalid hcopy, hspec.2 hnone⟩

/-! ## A failed add that drops a pair -/

/-- The pair of id `i` named by the one byte `0x61 + i`. -/
def nvTestPair (i : ℕ) : NvPair := ⟨i, [0x61 + i.toUInt8], .uint64⟩

/-- A unique-name list that held eighteen pairs, `"a"` to `"r"`, and then lost the last nine:
its table has grown to 32 buckets and holds nine pairs. -/
def nvTestList : NvPriv :=
  let priv := (List.range 18).foldl (fun priv i => nvlistAddCommon priv (nvTestPair i))
    (nvlistAlloc nvUniqueName)
  (List.range' 9 9).foldl (fun priv i =>
    nvlistRemoveAll priv (nvTestPair i).name priv.nvpNentries.toNat) priv

example : nvTestList.nvpNbuckets = 32 ∧ nvTestList.nvpNentries = 9 := by decide +kernel

/-- An add of a `uint64` pair `"a"`, id 100, that passes its checks and embeds nothing. -/
def nvTestAdd : NvAddArgs := ⟨true, ⟨100, [0x61], .uint64⟩, fun a => (0, a)⟩

theorem nvlistAddCommonA_enomem_frees_pair :
    nvTestPair 0 ∈ nvTestList.nvpList ∧ nvtLookupNameType nvTestList [0x61] none = some (nvTestPair 0) ∧
      ∃ r, nvlistAddCommonA nvTestList nvTestAdd [true, false] = some r ∧
        r.err = enomem ∧ nvTestPair 0 ∉ r.priv.nvpList ∧
          nvtLookupNameType r.priv [0x61] none = none := by
  -- the pair buffer is allocated; the removal of `"a"` leaves eight pairs in 32 buckets, so the
  -- `nvt_remove_nvpair` of `nvt_add_nvpair` shrinks, and that allocation fails
  obtain ⟨r, hr⟩ : ∃ r, nvlistAddCommonA nvTestList nvTestAdd [true, false] = some r :=
    Option.isSome_iff_exists.mp (by decide +kernel)
  have hrun : (nvlistAddCommonA nvTestList nvTestAdd [true, false]).all (fun r =>
      decide (r.err = enomem ∧ nvTestPair 0 ∉ r.priv.nvpList ∧
        nvtLookupNameType r.priv [0x61] none = none)) := by
    decide +kernel
  rw [hr, Option.all_some, decide_eq_true_iff] at hrun
  exact ⟨by decide +kernel, by decide +kernel, r, hr, hrun⟩

end Zfs
