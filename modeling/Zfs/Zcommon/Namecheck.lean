import Mathlib.Data.UInt
import Mathlib.Data.List.Basic
import Mathlib.Tactic.NormNum
import Zfs.Lib.Except

/-!
# Zcommon/Namecheck — `entity_namecheck`, `dataset_namecheck` and `get_dataset_depth`

A name is the bytes of a C string before its NUL.  `entity_namecheck` cuts it into components at
`/`, `@`, `#` and the NUL and checks each one as it goes; `EntityName dotAtDelim k p` is the
grammar it decides: `c₁/…/cₖ`, optionally followed by `@s` or `#s`, every component a non-empty
run of `valid_char` bytes and `%`, none of them `.` or `..`, except that with `dotAtDelim` the
component right before the delimiter is not checked.  The results:

* **`entityNamecheck` decides `EntityName true`** on NUL-free names (`entityNamecheck_grammar`),
  from the two directions of the component loop (`entityName_of_loop`, `loop_of_entityName`);
  `dataset_namecheck` adds only the refusal of `#`, and `get_dataset_depth` counts `k - 1`.
* the check does not run on the component before a delimiter, so `.@s` is accepted although it is
  not an `EntityName false` (`entityNamecheck_accepts_dot_before_delimiter`).

The loop is cut at the scan of one component (`takeWhile_component`, `dropWhile_component`): a
component followed by the byte that ends it is what the `while (*end != …)` scan returns.
-/

namespace Zfs

/-! ## The checker -/

/-- `ZFS_MAX_DATASET_NAME_LEN`. -/
def zfsMaxDatasetNameLen : ℕ := 256

/-- `valid_char(c)`: the bytes of a snapshot name. -/
def validChar (c : UInt8) : Bool :=
  ('a'.toUInt8 ≤ c && c ≤ 'z'.toUInt8) || ('A'.toUInt8 ≤ c && c ≤ 'Z'.toUInt8) ||
    ('0'.toUInt8 ≤ c && c ≤ '9'.toUInt8) || c == '-'.toUInt8 || c == '_'.toUInt8 ||
    c == '.'.toUInt8 || c == ':'.toUInt8 || c == ' '.toUInt8

/-- `namecheck_err_t`, the `why` of a refusal, with `what`, the offending byte, on
`NAME_ERR_INVALCHAR`; the pool and permission-set errors are not raised here. -/
inductive NamecheckErr
  | leadingSlash | emptyComponent | trailingSlash | invalchar (what : UInt8)
  | multipleDelimiters | toolong | selfRef | parentRef
  deriving DecidableEq, Repr

/-- The bytes at which `entity_namecheck`'s scan of a component stops: `/`, `@`, `#` and NUL. -/
def endsComponent (c : UInt8) : Bool :=
  c == '/'.toUInt8 || c == '@'.toUInt8 || c == '#'.toUInt8 || c == 0

/-- The snapshot and bookmark delimiters. -/
def isDelimiter (c : UInt8) : Bool := c == '@'.toUInt8 || c == '#'.toUInt8

/-- The bytes of an entity component: `valid_char`, and the `%` of temporary clones. -/
def componentChar (c : UInt8) : Bool := validChar c || c == '%'.toUInt8

/-- One turn of the `for (;;)` of `entity_namecheck` from `start` on: `comp` is `[start, end)`,
`e` is `*end` (the NUL once the list is used up), `prev` is the byte before `start`, which is what
`end[-1]` reads when `comp` is empty, and `foundDelim` is `found_delim`. -/
def entityNamecheckLoop (prev : UInt8) (foundDelim : Bool) (start : List UInt8) :
    Except NamecheckErr Unit :=
  let comp := start.takeWhile (fun c => !endsComponent c)
  let tail := start.dropWhile (fun c => !endsComponent c)
  let e := tail.headD 0
  if e = 0 ∧ comp.getLast?.getD prev = '/'.toUInt8 then .error .trailingSlash else
  match comp.find? (fun c => !componentChar c) with
  | some c => .error (.invalchar c)
  | none =>
    if (e = 0 ∨ e = '/'.toUInt8) ∧ comp = ['.'.toUInt8] then .error .selfRef else
    if (e = 0 ∨ e = '/'.toUInt8) ∧ comp = ['.'.toUInt8, '.'.toUInt8] then .error .parentRef else
    if isDelimiter e ∧ foundDelim then .error .multipleDelimiters else
    let foundDelim := foundDelim || isDelimiter e
    if comp = [] then .error .emptyComponent else
    if e = 0 then .ok () else
    if e = '/'.toUInt8 ∧ foundDelim then .error .trailingSlash else
    entityNamecheckLoop e foundDelim tail.tail
termination_by start.length
decreasing_by
  have hne : tail ≠ [] := by
    rintro h'
    exact ‹¬e = 0› (by simp [e, h'])
  have hle : tail.length ≤ start.length := (List.dropWhile_suffix _).length_le
  have hpos : 0 < tail.length := List.length_pos_iff.mpr hne
  show tail.tail.length < start.length
  rw [List.length_tail]
  omega

/-- `entity_namecheck(path, why, what)`.  The first turn of the loop never reads `end[-1]` before
`path` (its component is empty only at a delimiter), so `prev` starts at an arbitrary byte. -/
def entityNamecheck (path : List UInt8) : Except NamecheckErr Unit :=
  if zfsMaxDatasetNameLen ≤ path.length then .error .toolong
  else if path.headD 0 = '/'.toUInt8 then .error .leadingSlash
  else if path.headD 0 = 0 then .error .emptyComponent
  else entityNamecheckLoop 0 false path

/-- `dataset_namecheck(path, why, what)`: an entity that is not a bookmark. -/
def datasetNamecheck (path : List UInt8) : Except NamecheckErr Unit := do
  entityNamecheck path
  if '#'.toUInt8 ∈ path then throw (.invalchar '#'.toUInt8)

/-- `get_dataset_depth(path)`: the `/`s before the first `@`, `#` or NUL. -/
def getDatasetDepth : List UInt8 → ℕ
  | [] => 0
  | c :: cs =>
    if c = 0 ∨ isDelimiter c then 0
    else (if c = '/'.toUInt8 then 1 else 0) + getDatasetDepth cs

/-! ## The grammar -/

/-- A component: a non-empty string of `valid_char` bytes and `%`. -/
def IsComponent (c : List UInt8) : Prop := c ≠ [] ∧ ∀ b ∈ c, componentChar b = true

/-- The reserved components `.` and `..`. -/
def IsDotRef (c : List UInt8) : Prop := c = ['.'.toUInt8] ∨ c = ['.'.toUInt8, '.'.toUInt8]

/-- **Entity names** with `k` dataset components: `c₁/…/cₖ`, then optionally a delimiter and one
more component `s`, no component `.` or `..`; with `dotAtDelim` the component `cₖ` in front of a
delimiter may be `.` or `..`. -/
inductive EntityName (dotAtDelim : Bool) : ℕ → List UInt8 → Prop
  | last {c} : IsComponent c → ¬IsDotRef c → EntityName dotAtDelim 1 c
  | delim {c d s} : IsComponent c → (dotAtDelim = false → ¬IsDotRef c) → isDelimiter d = true →
      IsComponent s → ¬IsDotRef s → EntityName dotAtDelim 1 (c ++ d :: s)
  | slash {c r k} : IsComponent c → ¬IsDotRef c → EntityName dotAtDelim k r →
      EntityName dotAtDelim (k + 1) (c ++ '/'.toUInt8 :: r)

/-! ## Bytes -/

section Bytes

variable {b : UInt8}

theorem endsComponent_eq_false (h : componentChar b = true) : endsComponent b = false := by
  simp only [componentChar, validChar, Bool.or_eq_true, Bool.and_eq_true, decide_eq_true_eq,
    beq_iff_eq, UInt8.le_iff_toNat_le, UInt8.ext_iff, Char.toUInt8] at h
  simp only [endsComponent, Bool.or_eq_false_iff, beq_eq_false_iff_ne, ne_eq, UInt8.ext_iff,
    Char.toUInt8]
  simp at h ⊢
  omega

theorem endsComponent_of_isDelimiter (h : isDelimiter b = true) : endsComponent b = true := by
  simp only [isDelimiter, Bool.or_eq_true, beq_iff_eq] at h
  rcases h with rfl | rfl <;> rfl

/-- The bytes that do not end a component: neither `/`, nor a delimiter, nor NUL. -/
theorem endsComponent_eq_false_iff :
    endsComponent b = false ↔ b ≠ '/'.toUInt8 ∧ isDelimiter b = false ∧ b ≠ 0 := by
  simp only [endsComponent, isDelimiter, Bool.or_eq_false_iff, beq_eq_false_iff_ne]
  tauto

@[simp] theorem isDelimiter_zero : isDelimiter 0 = false := rfl

@[simp] theorem slash_ne_zero : '/'.toUInt8 ≠ 0 := by decide

@[simp] theorem isDelimiter_slash : isDelimiter '/'.toUInt8 = false := rfl

/-- A byte that ends a component in a NUL-free string is `/` or a delimiter. -/
theorem endsComponent_cases (h : endsComponent b = true) (h0 : b ≠ 0) :
    b = '/'.toUInt8 ∨ isDelimiter b = true := by
  simp only [endsComponent, Bool.or_eq_true, beq_iff_eq] at h
  simp only [isDelimiter, Bool.or_eq_true, beq_iff_eq]
  tauto

end Bytes

/-! ## The scan of one component

A run of component bytes followed by a byte that ends a component is what the scan of
`entity_namecheck` returns, the run as `[start, end)` and the byte as `*end`. -/

section Scan

variable {c r : List UInt8} {e : UInt8}

theorem not_endsComponent_of_forall (hc : ∀ b ∈ c, componentChar b = true) :
    ∀ b ∈ c, (!endsComponent b) = true := fun b hb => by
  simp [endsComponent_eq_false (hc b hb)]

theorem takeWhile_component (hc : ∀ b ∈ c, componentChar b = true)
    (he : endsComponent e = true) : (c ++ e :: r).takeWhile (fun b => !endsComponent b) = c := by
  rw [List.takeWhile_append_of_pos (not_endsComponent_of_forall hc),
    List.takeWhile_cons_of_neg (by simp [he]), List.append_nil]

theorem dropWhile_component (hc : ∀ b ∈ c, componentChar b = true)
    (he : endsComponent e = true) :
    (c ++ e :: r).dropWhile (fun b => !endsComponent b) = e :: r := by
  rw [List.dropWhile_append_of_pos (not_endsComponent_of_forall hc),
    List.dropWhile_cons_of_neg (by simp [he])]

/-- A run of component bytes at the end of the string is scanned whole. -/
theorem takeWhile_component_self (hc : ∀ b ∈ c, componentChar b = true) :
    c.takeWhile (fun b => !endsComponent b) = c := by
  simpa using @List.takeWhile_append_of_pos _ _ c [] (not_endsComponent_of_forall hc)

theorem dropWhile_component_self (hc : ∀ b ∈ c, componentChar b = true) :
    c.dropWhile (fun b => !endsComponent b) = [] := by
  simpa using @List.dropWhile_append_of_pos _ _ c [] (not_endsComponent_of_forall hc)

/-- What `end[-1]` reads after a component is one of its bytes, so never `/`. -/
theorem getLast?_getD_ne_slash (hc : IsComponent c) (prev : UInt8) :
    c.getLast?.getD prev ≠ '/'.toUInt8 := by
  obtain ⟨b, hb⟩ := List.getLast?_isSome.mpr hc.1 |> Option.isSome_iff_exists.mp
  have hmem : b ∈ c := List.mem_of_getLast? hb
  have hends := endsComponent_eq_false (hc.2 b hmem)
  rw [hb, Option.getD_some]
  rintro rfl
  exact absurd hends (by decide)

theorem find?_component (hc : ∀ b ∈ c, componentChar b = true) :
    c.find? (fun b => !componentChar b) = none :=
  List.find?_eq_none.mpr fun b hb => by simp [hc b hb]

end Scan

/-! ## The loop, one component at a time

Each lemma takes the loop over one component and the byte that ends it: the end of the string,
`/` or a delimiter.  Together with `isComponent_of_loop` (every accepted turn scans a component)
they say everything one turn can do. -/

section Loop

variable {c r : List UInt8} {prev d : UInt8} {fd : Bool}

/-- The last component is accepted unless it is `.` or `..`. -/
theorem loop_last (hc : IsComponent c) :
    entityNamecheckLoop prev fd c = .ok () ↔ ¬IsDotRef c := by
  rw [entityNamecheckLoop]
  simp only [takeWhile_component_self hc.2, dropWhile_component_self hc.2, find?_component hc.2,
    List.headD_nil, getLast?_getD_ne_slash hc, hc.1, isDelimiter_zero, true_or, true_and,
    and_false, Bool.false_eq_true, false_and, if_false, if_true]
  simp [ite_eq_iff, IsDotRef]

/-- After a component ended by `/` the loop goes on, unless the component is `.` or `..`, or the
`/` follows a delimiter. -/
theorem loop_slash (hc : IsComponent c) :
    entityNamecheckLoop prev fd (c ++ '/'.toUInt8 :: r) = .ok () ↔
      ¬IsDotRef c ∧ fd = false ∧ entityNamecheckLoop '/'.toUInt8 false r = .ok () := by
  have he : endsComponent '/'.toUInt8 = true := rfl
  rw [entityNamecheckLoop]
  simp only [takeWhile_component hc.2 he, dropWhile_component hc.2 he, find?_component hc.2,
    List.headD_cons, List.tail_cons, isDelimiter_slash, hc.1, Bool.or_false, slash_ne_zero]
  cases fd <;> simp [ite_eq_iff, IsDotRef, and_assoc]

/-- After a component ended by a delimiter the loop goes on with `found_delim` set, unless it was
set already; the component itself is not checked against `.` and `..`. -/
theorem loop_delim (hc : IsComponent c) (hd : isDelimiter d = true) :
    entityNamecheckLoop prev fd (c ++ d :: r) = .ok () ↔
      fd = false ∧ entityNamecheckLoop d true r = .ok () := by
  have he := endsComponent_of_isDelimiter hd
  obtain ⟨hd0, hds⟩ : d ≠ 0 ∧ d ≠ '/'.toUInt8 := by
    simp only [isDelimiter, Bool.or_eq_true, beq_iff_eq] at hd
    rcases hd with rfl | rfl <;> decide
  rw [entityNamecheckLoop]
  simp only [takeWhile_component hc.2 he, dropWhile_component hc.2 he, find?_component hc.2,
    List.headD_cons, List.tail_cons, hd, hd0, hds, hc.1, Bool.or_true]
  cases fd <;> simp

/-- A turn that does not fail has scanned a component. -/
theorem isComponent_of_loop {start : List UInt8} (h : entityNamecheckLoop prev fd start = .ok ()) :
    IsComponent (start.takeWhile (fun b => !endsComponent b)) := by
  rw [entityNamecheckLoop] at h
  split at h
  · cases h
  · split at h
    · cases h
    · rename_i hfind
      refine ⟨fun hnil => ?_, fun b hb => by simpa using List.find?_eq_none.mp hfind b hb⟩
      simp [hnil, ite_eq_iff] at h

/-- **One turn of the loop, inverted**: a NUL-free string the loop does not refuse at once is a
component, followed by nothing, by `/` or by a delimiter. -/
theorem loop_cases {start : List UInt8} (hp : 0 ∉ start)
    (h : entityNamecheckLoop prev fd start = .ok ()) :
    ∃ c, IsComponent c ∧ (start = c ∨ (∃ r, start = c ++ '/'.toUInt8 :: r) ∨
      ∃ d r, isDelimiter d = true ∧ start = c ++ d :: r) := by
  have hsplit := (@List.takeWhile_append_dropWhile _ (fun b => !endsComponent b) start).symm
  refine ⟨_, isComponent_of_loop h, ?_⟩
  cases hdw : start.dropWhile (fun b => !endsComponent b) with
  | nil => exact .inl (by simpa [hdw] using hsplit)
  | cons e r =>
    rw [hdw] at hsplit
    have he : endsComponent e = true := by
      simpa [hdw] using List.head_dropWhile_not (fun b => !endsComponent b) (l := start)
        (by simp [hdw])
    have he0 : e ≠ 0 := fun h0 => hp (by rw [hsplit, ← h0]; simp)
    rcases endsComponent_cases he he0 with rfl | hd
    · exact .inr (.inl ⟨r, hsplit⟩)
    · exact .inr (.inr ⟨e, r, hd, hsplit⟩)

end Loop

/-! ## The loop decides the grammar -/

section Grammar

variable {b : Bool} {k : ℕ} {p : List UInt8}

/-- After the delimiter the loop accepts exactly one component that is not `.` or `..`. -/
theorem component_of_loop {s : List UInt8} {prev : UInt8} (hp : 0 ∉ s)
    (h : entityNamecheckLoop prev true s = .ok ()) : IsComponent s ∧ ¬IsDotRef s := by
  obtain ⟨c, hc, rfl | ⟨r, rfl⟩ | ⟨d, r, hd, rfl⟩⟩ := loop_cases hp h
  · exact ⟨hc, (loop_last hc).mp h⟩
  · cases ((loop_slash hc).mp h).2.1
  · cases ((loop_delim hc hd).mp h).1

/-- **What the loop accepts is an entity name**, by strong induction on the length: after a `/`
the loop goes on with a shorter string. -/
theorem entityName_of_loop {start : List UInt8} {prev : UInt8} (hp : 0 ∉ start)
    (h : entityNamecheckLoop prev false start = .ok ()) : ∃ k, EntityName true k start := by
  induction hn : start.length using Nat.strong_induction_on generalizing start prev with
  | _ n ih =>
  obtain ⟨c, hc, rfl | ⟨r, rfl⟩ | ⟨d, r, hd, rfl⟩⟩ := loop_cases hp h
  · exact ⟨1, .last hc ((loop_last hc).mp h)⟩
  · obtain ⟨hdot, -, hr⟩ := (loop_slash hc).mp h
    have hlt : r.length < n := by
      rw [← hn, List.length_append, List.length_cons]
      omega
    obtain ⟨k, hk⟩ := ih r.length hlt (fun h0 => hp (by simp [h0])) hr rfl
    exact ⟨k + 1, .slash hc hdot hk⟩
  · obtain ⟨-, hs⟩ := (loop_delim hc hd).mp h
    obtain ⟨hs, hsdot⟩ := component_of_loop (fun h0 => hp (by simp [h0])) hs
    exact ⟨1, .delim hc (fun h => by cases h) hd hs hsdot⟩

/-- **The loop accepts every entity name**, by induction on its derivation. -/
theorem loop_of_entityName (h : EntityName true k p) (prev : UInt8) :
    entityNamecheckLoop prev false p = .ok () := by
  induction h generalizing prev with
  | last hc hdot => exact (loop_last hc).mpr hdot
  | delim hc _ hd hs hsdot => exact (loop_delim hc hd).mpr ⟨rfl, (loop_last hs).mpr hsdot⟩
  | slash hc hdot _ ih => exact (loop_slash hc).mpr ⟨hdot, rfl, ih _⟩

theorem EntityName.one_le (h : EntityName b k p) : 1 ≤ k := by
  cases h <;> omega

/-- An entity name starts with a component byte. -/
theorem EntityName.componentChar_headD (h : EntityName b k p) : componentChar (p.headD 0) = true := by
  obtain ⟨c, r, hc, rfl⟩ : ∃ c r, IsComponent c ∧ p = c ++ r := by
    cases h with
    | last hc _ => exact ⟨_, [], hc, by simp⟩
    | delim hc _ _ _ _ => exact ⟨_, _, hc, rfl⟩
    | slash hc _ _ => exact ⟨_, _, hc, rfl⟩
  obtain ⟨x, c, rfl⟩ := List.exists_cons_of_ne_nil hc.1
  exact hc.2 x (by simp)

theorem entityNamecheck_eq_ok_iff (hp : 0 ∉ p) :
    entityNamecheck p = .ok () ↔ p.length < zfsMaxDatasetNameLen ∧ ∃ k, EntityName true k p := by
  constructor
  · intro h
    unfold entityNamecheck at h
    split_ifs at h with hlen
    exact ⟨Nat.lt_of_not_le hlen, entityName_of_loop hp h⟩
  · rintro ⟨hlen, k, hk⟩
    obtain ⟨hs, -, h0⟩ := endsComponent_eq_false_iff.mp (endsComponent_eq_false hk.componentChar_headD)
    rw [entityNamecheck, if_neg (Nat.not_le.mpr hlen), if_neg hs, if_neg h0]
    exact loop_of_entityName hk 0

theorem datasetNamecheck_eq_ok_iff :
    datasetNamecheck p = .ok () ↔ entityNamecheck p = .ok () ∧ '#'.toUInt8 ∉ p := by
  unfold datasetNamecheck
  cases entityNamecheck p with
  | error e => simp
  | ok u => by_cases h : '#'.toUInt8 ∈ p <;> simp [h]

/-- `get_dataset_depth` passes over the bytes of a component. -/
theorem getDatasetDepth_component_append {c : List UInt8} (hc : ∀ x ∈ c, componentChar x = true)
    (r : List UInt8) : getDatasetDepth (c ++ r) = getDatasetDepth r := by
  induction c with
  | nil => rfl
  | cons x c ih =>
    obtain ⟨hx, hxd, hx0⟩ := endsComponent_eq_false_iff.mp (endsComponent_eq_false (hc x (by simp)))
    simp [getDatasetDepth, hx, hxd, hx0, ih fun y hy => hc y (by simp [hy])]

/-- **`get_dataset_depth` counts the dataset components** of an entity name, less one. -/
theorem getDatasetDepth_of_entityName (h : EntityName b k p) : getDatasetDepth p = k - 1 := by
  induction h with
  | last hc _ => simpa [getDatasetDepth] using getDatasetDepth_component_append hc.2 []
  | delim hc _ hd _ _ => simp [getDatasetDepth_component_append hc.2, getDatasetDepth, hd]
  | slash hc _ hk ih =>
    have := hk.one_le
    simp only [getDatasetDepth_component_append hc.2, getDatasetDepth, ih, slash_ne_zero,
      isDelimiter_slash, Bool.false_eq_true, or_self, if_false, if_true]
    omega

theorem entityNamecheck_grammar (hp : 0 ∉ p) :
    (entityNamecheck p = .ok () ↔ p.length < zfsMaxDatasetNameLen ∧ ∃ k, EntityName true k p) ∧
      (datasetNamecheck p = .ok () ↔ entityNamecheck p = .ok () ∧ '#'.toUInt8 ∉ p) ∧
      ∀ k, EntityName true k p → getDatasetDepth p = k - 1 :=
  ⟨entityNamecheck_eq_ok_iff hp, datasetNamecheck_eq_ok_iff,
    fun _ hk => getDatasetDepth_of_entityName hk⟩

theorem entityNamecheck_grammar_a_b :
    0 ∉ ['a'.toUInt8, '/'.toUInt8, 'b'.toUInt8] ∧
      (entityNamecheck ['a'.toUInt8, '/'.toUInt8, 'b'.toUInt8] = .ok () ↔
        ['a'.toUInt8, '/'.toUInt8, 'b'.toUInt8].length < zfsMaxDatasetNameLen ∧
          ∃ k, EntityName true k ['a'.toUInt8, '/'.toUInt8, 'b'.toUInt8]) ∧
      (datasetNamecheck ['a'.toUInt8, '/'.toUInt8, 'b'.toUInt8] = .ok () ↔
        entityNamecheck ['a'.toUInt8, '/'.toUInt8, 'b'.toUInt8] = .ok () ∧
          '#'.toUInt8 ∉ ['a'.toUInt8, '/'.toUInt8, 'b'.toUInt8]) ∧
      ∀ k, EntityName true k ['a'.toUInt8, '/'.toUInt8, 'b'.toUInt8] →
        getDatasetDepth ['a'.toUInt8, '/'.toUInt8, 'b'.toUInt8] = k - 1 :=
  ⟨by decide, entityNamecheck_grammar (by decide)⟩

end Grammar

/-! ## The component before a delimiter

The reserved-name check runs only on components ended by `/` or by the NUL, so the last dataset
component of a snapshot or bookmark name may be `.` or `..`. -/

theorem entityNamecheck_accepts_dot_before_delimiter :
    entityNamecheck ['.'.toUInt8, '@'.toUInt8, 's'.toUInt8] = .ok () ∧
      ¬∃ k, EntityName false k ['.'.toUInt8, '@'.toUInt8, 's'.toUInt8] := by
  have hdot : IsComponent ['.'.toUInt8] :=
    ⟨List.cons_ne_nil _ _, by simp only [List.mem_singleton, forall_eq]; rfl⟩
  have hs : IsComponent ['s'.toUInt8] :=
    ⟨List.cons_ne_nil _ _, by simp only [List.mem_singleton, forall_eq]; rfl⟩
  refine ⟨?_, ?_⟩
  · have hk : EntityName true 1 (['.'.toUInt8] ++ '@'.toUInt8 :: ['s'.toUInt8]) :=
      .delim hdot (fun h => by cases h) rfl hs (by unfold IsDotRef; decide)
    rw [entityNamecheck, if_neg (by decide), if_neg (by decide), if_neg (by decide)]
    exact loop_of_entityName hk 0
  · rintro ⟨k, hk⟩
    generalize hp : ['.'.toUInt8, '@'.toUInt8, 's'.toUInt8] = p at hk
    cases hk with
    | last hc _ => exact absurd (hc.2 '@'.toUInt8 (by simp [← hp])) (by decide)
    | delim hc hcdot hd _ _ =>
      -- the scan that stops at the delimiter finds the component `.`
      have hscan := congrArg (List.takeWhile fun b => !endsComponent b) hp
      rw [takeWhile_component hc.2 (endsComponent_of_isDelimiter hd)] at hscan
      exact hcdot rfl (.inl (by rw [← hscan]; rfl))
    | slash hc _ _ =>
      have hscan := congrArg (List.dropWhile fun b => !endsComponent b) hp
      rw [dropWhile_component hc.2 rfl] at hscan
      exact absurd (List.cons.inj (show ['@'.toUInt8, 's'.toUInt8] = _ by rw [← hscan]; rfl)).1
        (by decide)

end Zfs
