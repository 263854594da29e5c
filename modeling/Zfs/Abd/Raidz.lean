import Zfs.Abd.Iter

/-!
# Abd/Raidz — the lockstep walks of the RAID-Z parity code (`abd.c`)

`abd_raidz_gen_iterate` walks the parity columns and a data column together, and
`abd_raidz_rec_iterate` the parity columns and the reconstruction targets: each turn maps every
iterator, clips the turn to the shortest mapping, hands the callback the mapped pieces and
advances every iterator by the same length. Their chunk boundaries differ, so the pieces are
cut wherever any column's chunk ends; what this module shows is that this is invisible to the
callback except through the cutting itself.

* `AbdIter.turnCols` — one lockstep turn over a list of iterators;
* **`abdRaidzGenIterate_pieces`** — the generation walk hands the callback the same-length
  pieces of all parity columns and of the data, cut by one cutting of the parity size, with no
  data once the data is done, and writes back what it returns;
* **`abdRaidzRecIterate_pieces`** — the same for the reconstruction walk and both groups.
-/

namespace Zfs

open Buffer

/-! ## Several iterators in lockstep -/

/-- The `size` bytes of an iterator's ABD from byte `p` on. -/
def AbdIter.window (p size : ℕ) (it : AbdIter) : List UInt8 :=
  (it.iterAbd.bytes.drop p).take size

/-- `len` clipped to the mapping of each iterator: the `MIN` of a lockstep turn. -/
def minMapsize (its : List AbdIter) (len : ℕ) : ℕ :=
  its.foldr (fun it l => min (abdIterMapsize it) l) len

/-- A store of the callback's bytes through an iterator's mapping, then an advance by `len`. -/
def abdIterStep (len : ℕ) (q : AbdIter × List UInt8) : AbdIter :=
  abdIterAdvance (abdIterWrite q.1 q.2) len

theorem minMapsize_le (its : List AbdIter) (len : ℕ) : minMapsize its len ≤ len := by
  induction its with
  | nil => exact Nat.le_refl _
  | cons it its ih => exact Nat.le_trans (Nat.min_le_right _ _) ih

theorem minMapsize_le_mapsize {its : List AbdIter} {it : AbdIter} (h : it ∈ its) (len : ℕ) :
    minMapsize its len ≤ abdIterMapsize it := by
  induction its with
  | nil => simp at h
  | cons x its ih =>
    rcases List.mem_cons.mp h with rfl | h
    · exact Nat.min_le_left _ _
    · exact Nat.le_trans (Nat.min_le_right _ _) (ih h)

theorem minMapsize_pos {its : List AbdIter} {len : ℕ} (h : ∀ it ∈ its, 0 < abdIterMapsize it)
    (hlen : 0 < len) : 0 < minMapsize its len := by
  induction its with
  | nil => exact hlen
  | cons it its ih =>
    exact Nat.lt_min.mpr ⟨h it List.mem_cons_self, ih fun x hx => h x (List.mem_cons_of_mem _ hx)⟩

/-- Each ABD of the first list is written at `p` with the bytes of the second into the ABD of the
third, in turn. -/
inductive Abd.AllWritten (p : ℕ) : List Abd → List (List UInt8) → List Abd → Prop
  | nil : Abd.AllWritten p [] [] []
  | cons {a a' : Abd} {w : List UInt8} {as as' : List Abd} {ws : List (List UInt8)} :
      a.Written p w a' → Abd.AllWritten p as ws as' → Abd.AllWritten p (a :: as) (w :: ws) (a' :: as')

theorem Abd.AllWritten.refl (p : ℕ) : ∀ {as : List Abd}, (∀ a ∈ as, a.Ok) →
    Abd.AllWritten p as (as.map fun _ => []) as
  | [], _ => .nil
  | a :: _, h =>
    .cons (Abd.Written.refl (h a List.mem_cons_self) p)
      (Abd.AllWritten.refl p fun x hx => h x (List.mem_cons_of_mem _ hx))

/-- Two turns of adjacent writes, column by column, are one. -/
theorem Abd.AllWritten.trans {p len : ℕ} {as as₁ as₂ : List Abd} {ws ws' : List (List UInt8)}
    (h : Abd.AllWritten p as ws as₁) (h' : Abd.AllWritten (p + len) as₁ ws' as₂)
    (hw : ∀ w ∈ ws, w.length = len) (ha : ∀ a ∈ as, a.Ok ∧ p + len ≤ a.abdSize) :
    Abd.AllWritten p as (List.zipWith (· ++ ·) ws ws') as₂ := by
  induction h generalizing as₂ ws' with
  | nil =>
    cases h'
    exact .nil
  | @cons a a₁ w as as₁ ws hwr _ ih =>
    cases h' with
    | cons hwr' hrest' =>
      have hlen := hw w List.mem_cons_self
      have ha' := ha a List.mem_cons_self
      exact .cons (hwr.trans (by rw [hlen]; exact hwr') ha'.1 (by rw [hlen]; exact ha'.2))
        (ih hrest' (fun x hx => hw x (List.mem_cons_of_mem _ hx))
          (fun x hx => ha x (List.mem_cons_of_mem _ hx)))

/-- What the iterators of a lockstep turn map is the first `len` bytes of their windows. -/
theorem map_abdIterRead {its : List AbdIter} {p size len : ℕ}
    (h : ∀ it ∈ its, it.At p ∧ p + size ≤ it.iterAbd.abdSize) (hmap : ∀ it ∈ its, len ≤ abdIterMapsize it)
    (hlen : len ≤ size) :
    its.map (abdIterRead · len) = (its.map (AbdIter.window p size)).map (·.take len) := by
  rw [List.map_map]
  apply List.map_congr_left
  intro it hit
  rw [(h it hit).1.read (hmap it hit)]
  simp only [Function.comp, AbdIter.window, List.take_take, Nat.min_eq_left hlen]

/-- **One lockstep turn over several iterators** standing at `p`, each with `size` bytes ahead
and mapping at least `len` of them: what is mapped is the first `len` bytes of each window, the
stores write each ABD at `p`, and the advanced iterators stand at `p + len` with the rest of their
windows ahead. -/
theorem AbdIter.turnCols {p len size : ℕ} : ∀ {its : List AbdIter} {outs : List (List UInt8)},
    (∀ it ∈ its, it.At p ∧ p + size ≤ it.iterAbd.abdSize) → (∀ it ∈ its, len ≤ abdIterMapsize it) →
    len ≤ size → outs.map List.length = its.map (fun _ => len) →
    (∀ it ∈ (its.zip outs).map (abdIterStep len),
        it.At (p + len) ∧ p + len + (size - len) ≤ it.iterAbd.abdSize) ∧
      ((its.zip outs).map (abdIterStep len)).map (AbdIter.window (p + len) (size - len)) =
        (its.map (AbdIter.window p size)).map (·.drop len) ∧
      Abd.AllWritten p (its.map (·.iterAbd)) outs (((its.zip outs).map (abdIterStep len)).map (·.iterAbd))
  | [], [], _, _, _, _ => ⟨by simp, rfl, .nil⟩
  | it :: its, o :: outs, h, hmap, hsize, hlens => by
    simp only [List.map_cons, List.cons.injEq] at hlens
    have hit := h it List.mem_cons_self
    obtain ⟨-, hw, hat, htail⟩ :=
      @AbdIter.At.turn it p hit.1 len size o (hmap it List.mem_cons_self) hsize hlens.1
    obtain ⟨ih2, ih3, ih4⟩ := AbdIter.turnCols (fun x hx => h x (List.mem_cons_of_mem _ hx))
      (fun x hx => hmap x (List.mem_cons_of_mem _ hx)) hsize hlens.2
    refine ⟨?_, ?_, ?_⟩
    · intro x hx
      rw [List.zip_cons_cons, List.map_cons, List.mem_cons] at hx
      rcases hx with rfl | hx
      · refine ⟨hat, ?_⟩
        simp only [abdIterStep, abdIterAdvance_iterAbd, abdIterWrite_abdSize]
        omega
      · exact ih2 x hx
    · simp only [List.zip_cons_cons, List.map_cons, ih3, AbdIter.window, abdIterStep,
        abdIterAdvance_iterAbd, htail]
    · simp only [List.zip_cons_cons, List.map_cons]
      exact .cons (by simpa [abdIterStep] using hw) ih4
  | [], _ :: _, _, _, _, hlens => by simp at hlens
  | _ :: _, [], _, _, _, hlens => by simp at hlens

/-- A lockstep turn followed by the rest of the walk writes each column with its piece of this
turn and then what the rest writes. -/
theorem AbdIter.allWritten_turn {p len size : ℕ} {its : List AbdIter} {outs ws : List (List UInt8)}
    {abds : List Abd} (h : ∀ it ∈ its, it.At p ∧ p + size ≤ it.iterAbd.abdSize)
    (hmap : ∀ it ∈ its, len ≤ abdIterMapsize it) (hsize : len ≤ size)
    (hlens : outs.map List.length = its.map (fun _ => len))
    (hrest : Abd.AllWritten (p + len) (((its.zip outs).map (abdIterStep len)).map (·.iterAbd)) ws abds) :
    Abd.AllWritten p (its.map (·.iterAbd)) (List.zipWith (· ++ ·) outs ws) abds := by
  refine (AbdIter.turnCols h hmap hsize hlens).2.2.trans hrest (fun w hw => ?_) (fun a ha => ?_)
  · obtain ⟨it, -, hit⟩ := List.mem_map.mp (hlens ▸ List.mem_map_of_mem (f := List.length) hw)
    exact hit.symm
  · obtain ⟨it, hit, rfl⟩ := List.mem_map.mp ha
    exact ⟨(h it hit).1.ok, by have := (h it hit).2; omega⟩

/-- A walk that is over writes nothing: each column is written with no bytes. -/
theorem Abd.AllWritten.done {p size : ℕ} {its : List AbdIter} (h : ∀ it ∈ its, it.iterAbd.Ok) :
    Abd.AllWritten p (its.map (·.iterAbd)) ((its.map (AbdIter.window p size)).map fun _ => [])
      (its.map (·.iterAbd)) := by
  have hrefl : Abd.AllWritten p (its.map (·.iterAbd)) ((its.map (·.iterAbd)).map fun _ => [])
      (its.map (·.iterAbd)) := Abd.AllWritten.refl p fun a ha => by
    obtain ⟨it, hit, rfl⟩ := List.mem_map.mp ha
    exact h it hit
  simpa only [List.map_map, Function.comp_def] using hrefl

/-! ## ABDs that start inside their first chunk

The lockstep walks map their iterators as `abd_iter_init` sets them up, with no advance first, so
they need the ABD's offset to lie inside its first chunk. `abd_get_offset_impl` keeps that: its
walk over the chunks stops at the first one the offset lies in. -/

/-- The offset of a non-empty ABD lies inside its first chunk. -/
def Abd.StartsInside (abd : Abd) : Prop :=
  0 < abd.abdSize → abd.abdU.start < abd.abdU.lens.getD 0 0

instance (abd : Abd) : Decidable abd.StartsInside := inferInstanceAs (Decidable (_ → _))

theorem abdIterInit_at {abd : Abd} (hok : abd.Ok) (hin : abd.StartsInside) :
    (abdIterInit abd).At 0 := by
  refine ⟨abdIterInit_points hok, fun hpos => ?_⟩
  have hstart := hin (by simpa using hpos)
  cases hu : abd.abdU with
  | linear buf => simpa [abdIterInit, hu, AbdU.start, AbdU.lens] using hstart
  | scatter sgl o => simpa [abdIterInit, hu, AbdU.start, AbdU.lens] using hstart

/-- The walk over the chunks stops inside one, unless it runs past the last. -/
theorem abdGetOffsetWalk_inside : ∀ (sgl : List (List UInt8)) (o : ℕ),
    (abdGetOffsetWalk sgl o).1 = [] ∨
      (abdGetOffsetWalk sgl o).2 < ((abdGetOffsetWalk sgl o).1.map List.length).getD 0 0
  | [], _ => Or.inl rfl
  | sg :: sgs, o => by
    by_cases hin : o < sg.length
    · simp [abdGetOffsetWalk, hin]
    · simpa [abdGetOffsetWalk, hin] using abdGetOffsetWalk_inside sgs (o - sg.length)

/-- A well-formed sub-ABD starts inside its first chunk. -/
theorem abdGetOffsetImpl_startsInside {sabd : Abd} {off size : ℕ}
    (h : (abdGetOffsetImpl sabd off size).Ok) : (abdGetOffsetImpl sabd off size).StartsInside := by
  intro hpos
  unfold Abd.Ok at h
  cases hu : sabd.abdU with
  | linear buf =>
    simp only [abdGetOffsetImpl, hu, AbdU.start, AbdU.flat] at h hpos ⊢
    simp only [AbdU.lens, List.getD_cons_zero]
    omega
  | scatter sgl o =>
    simp only [abdGetOffsetImpl, hu, AbdU.start, AbdU.flat] at h hpos ⊢
    rcases abdGetOffsetWalk_inside sgl (o + off) with hnil | hin
    · rw [hnil, List.flatten_nil, List.length_nil] at h
      omega
    · simpa only [AbdU.lens] using hin

theorem abdGetOffsetSize_startsInside {sabd : Abd} (hok : sabd.Ok) {off size : ℕ}
    (hsize : off + size ≤ sabd.abdSize) : (abdGetOffsetSize sabd off size).StartsInside :=
  abdGetOffsetImpl_startsInside (bytes_abdGetOffsetSize hok hsize).2

theorem abdGetOffset_startsInside {sabd : Abd} (hok : sabd.Ok) {off : ℕ} {abd : Abd}
    (h : abdGetOffset sabd off = some abd) : abd.StartsInside := by
  have hsub := ((bytes_abdGetOffset hok off).2 abd h).2
  unfold abdGetOffset at h
  dsimp only at h
  split_ifs at h with hoff hpos hzero
  · cases h
    exact abdGetOffsetImpl_startsInside hsub
  · exact absurd hzero (Nat.lt_irrefl 0)

/-- Iterators set up on columns that start inside their first chunk stand at their first byte. -/
theorem abdIterInit_cols {abds : List Abd} {size : ℕ}
    (h : ∀ a ∈ abds, a.Ok ∧ a.StartsInside ∧ size ≤ a.abdSize) :
    ∀ it ∈ abds.map abdIterInit, it.At 0 ∧ 0 + size ≤ it.iterAbd.abdSize := by
  intro it hit
  obtain ⟨a, ha, rfl⟩ := List.mem_map.mp hit
  obtain ⟨hok, hin, hle⟩ := h a ha
  exact ⟨abdIterInit_at hok hin, by simpa using hle⟩

@[simp] theorem map_abdIterInit_iterAbd (abds : List Abd) :
    (abds.map abdIterInit).map (·.iterAbd) = abds := by
  simp [Function.comp_def]

@[simp] theorem map_abdIterInit_window (abds : List Abd) (size : ℕ) :
    (abds.map abdIterInit).map (AbdIter.window 0 size) = abds.map (·.bytes.take size) := by
  simp [Function.comp_def, AbdIter.window]

/-! ## `abd_raidz_gen_iterate` -/

/-- `func_raidz_gen`: handed the mapped pieces of the parity columns and the mapped data (none
once the data is done), it stores over the parity pieces. -/
structure RaidzGenFunc where
  func : List (List UInt8) → List UInt8 → List (List UInt8)
  length_func : ∀ cs d, (func cs d).map List.length = cs.map List.length

/-- The loop of `abd_raidz_gen_iterate` over the parity iterators `caiters` and the data
iterator `daiter` (none for a `NULL` data ABD), with `csize` parity bytes and `dsize` data bytes
left. -/
def abdRaidzGenIterateLoop (f : RaidzGenFunc) :
    ℕ → List AbdIter → Option AbdIter → ℕ → ℕ → Option (List Abd × Option Abd)
  | fuel, caiters, daiter, csize, dsize =>
    if csize = 0 then some (caiters.map (·.iterAbd), daiter.map (·.iterAbd))
    else
      match fuel with
      | 0 => none
      | fuel + 1 =>
        -- the data is mapped while `dabd && dsize > 0`
        let dmap := daiter.filter fun _ => 0 < dsize
        let len := minMapsize caiters csize
        let len := match dmap with
          | some d => min (abdIterMapsize d) len
          | none => len
        let dlen := match dmap with
          | some _ => len
          | none => 0
        let outs := f.func (caiters.map (abdIterRead · len))
          (match dmap with
            | some d => abdIterRead d dlen
            | none => [])
        abdRaidzGenIterateLoop f fuel ((caiters.zip outs).map (abdIterStep len))
          (match dmap with
            | some d => some (abdIterAdvance d dlen)
            | none => daiter)
          (csize - len) (dsize - dlen)

/-- `abd_raidz_gen_iterate`: the parity ABDs after the callback's stores, and the data ABD. -/
def abdRaidzGenIterate (cabds : List Abd) (dabd : Option Abd) (csize dsize : ℕ)
    (f : RaidzGenFunc) : Option (List Abd × Option Abd) :=
  abdRaidzGenIterateLoop f csize (cabds.map abdIterInit) (dabd.map abdIterInit) csize dsize

/-- The data side of a generation walk standing at byte `p`: `dsize` data bytes are left, and
the data iterator stands where they begin, at `p` while any are left. -/
def GenData (daiter : Option AbdIter) (dsize p : ℕ) : Prop :=
  daiter.elim (dsize = 0) fun d =>
    d.At (d.iterAbd.abdSize - dsize) ∧ dsize ≤ d.iterAbd.abdSize ∧
      (0 < dsize → d.iterAbd.abdSize - dsize = p)

/-- The data bytes left to a generation walk. -/
def genDataLeft (daiter : Option AbdIter) (dsize : ℕ) : List UInt8 :=
  daiter.elim [] fun d => d.iterAbd.bytes.drop (d.iterAbd.abdSize - dsize)

/-- With no data left, the walk hands the callback no data. -/
theorem genDataLeft_of_zero {daiter : Option AbdIter} {p : ℕ} (h : GenData daiter 0 p) :
    genDataLeft daiter 0 = [] := by
  cases daiter with
  | none => rfl
  | some d =>
    simp only [genDataLeft, Option.elim, Nat.sub_zero]
    exact List.drop_eq_nil_of_le (Nat.le_of_eq h.1.ok.length_bytes)

/-- A turn of the data iterator while data is left: it maps the next data bytes and stands
`len` further on, with `len` fewer bytes left. -/
theorem GenData.turn {d : AbdIter} {dsize p len : ℕ} (h : GenData (some d) dsize p)
    (hpos : 0 < dsize) (hlen : len ≤ abdIterMapsize d) :
    abdIterRead d len = (genDataLeft (some d) dsize).take len ∧
      GenData (some (abdIterAdvance d len)) (dsize - len) (p + len) ∧
      genDataLeft (some (abdIterAdvance d len)) (dsize - len) =
        (genDataLeft (some d) dsize).drop len := by
  obtain ⟨hat, hle, hp⟩ := h
  have hpd := hp hpos
  rw [hpd] at hat
  have hmap := hat.mapsize_le
  have hread := hat.read hlen
  simp only [GenData, genDataLeft, Option.elim, abdIterAdvance_iterAbd]
  refine ⟨by rw [hread, hpd], ⟨?_, by omega, fun _ => by omega⟩, ?_⟩
  · rw [show d.iterAbd.abdSize - (dsize - len) = p + len by omega]
    exact hat.toPoints.advance (by omega)
  · rw [show d.iterAbd.abdSize - (dsize - len) = p + len by omega, hpd, List.drop_drop]

/-- With no data mapped, the data side stays as it is and hands the callback nothing. -/
theorem GenData.idle {daiter : Option AbdIter} {dsize p : ℕ} (h : GenData daiter dsize p)
    (hno : daiter.filter (fun _ => 0 < dsize) = none) (q : ℕ) :
    GenData daiter dsize q ∧ genDataLeft daiter dsize = [] := by
  cases daiter with
  | none => exact ⟨h, rfl⟩
  | some d =>
    have h0 : dsize = 0 := by
      simp only [Option.filter_some, decide_eq_true_eq] at hno
      by_contra hne
      rw [if_pos (Nat.pos_of_ne_zero hne)] at hno
      exact Option.some_ne_none d hno
    subst h0
    exact ⟨⟨h.1, h.2.1, fun h' => absurd h' (Nat.lt_irrefl 0)⟩, genDataLeft_of_zero h⟩

theorem length_window_take {its : List AbdIter} {p size len : ℕ}
    (h : ∀ it ∈ its, it.At p ∧ p + size ≤ it.iterAbd.abdSize) (hlen : len ≤ size) :
    ((its.map (AbdIter.window p size)).map (·.take len)).map List.length = its.map fun _ => len := by
  simp only [List.map_map]
  apply List.map_congr_left
  intro it hit
  simp only [Function.comp, AbdIter.window, List.length_take, List.length_drop,
    (h it hit).1.ok.length_bytes]
  have := (h it hit).2
  omega

/-- **One turn of the generation walk**, with data left or not: the length it takes, and the
data side after it. -/
theorem abdRaidzGenIterateLoop_turn (f : RaidzGenFunc) (fuel : ℕ) {caiters : List AbdIter}
    {daiter : Option AbdIter} {p csize dsize : ℕ}
    (hc : ∀ it ∈ caiters, it.At p ∧ p + csize ≤ it.iterAbd.abdSize) (hd : GenData daiter dsize p)
    (h0 : csize ≠ 0) :
    ∃ len daiter' dsize', 0 < len ∧ len ≤ csize ∧ (∀ it ∈ caiters, len ≤ abdIterMapsize it) ∧
      GenData daiter' dsize' (p + len) ∧
      genDataLeft daiter' dsize' = (genDataLeft daiter dsize).drop len ∧
      daiter'.map (·.iterAbd) = daiter.map (·.iterAbd) ∧
      abdRaidzGenIterateLoop f (fuel + 1) caiters daiter csize dsize =
        abdRaidzGenIterateLoop f fuel ((caiters.zip (f.func
            ((caiters.map (AbdIter.window p csize)).map (·.take len))
            ((genDataLeft daiter dsize).take len))).map (abdIterStep len))
          daiter' (csize - len) dsize' := by
  have hcmap : ∀ it ∈ caiters, 0 < abdIterMapsize it := fun it hit =>
    (hc it hit).1.mapsize_pos (by have := (hc it hit).2; omega)
  have hc0 := minMapsize_pos hcmap (Nat.pos_of_ne_zero h0)
  have hcle := minMapsize_le caiters csize
  cases hdm : daiter.filter (fun _ => 0 < dsize) with
  | none =>
    -- no data: the turn is clipped by the parity columns alone
    obtain ⟨hd', hleft⟩ := hd.idle hdm (p + minMapsize caiters csize)
    have hread := map_abdIterRead hc (fun it hit => minMapsize_le_mapsize hit csize) hcle
    refine ⟨minMapsize caiters csize, daiter, dsize, hc0, hcle,
      fun it hit => minMapsize_le_mapsize hit csize, hd', by rw [hleft, List.drop_nil], rfl, ?_⟩
    rw [abdRaidzGenIterateLoop.eq_def]
    dsimp only
    rw [if_neg h0, hdm, hleft, List.take_nil]
    dsimp only
    rw [hread, Nat.sub_zero]
  | some d =>
    -- data left: the turn is also clipped by the data's mapping
    have hdsome : daiter = some d ∧ 0 < dsize := by
      cases daiter with
      | none => simp at hdm
      | some d' =>
        simp only [Option.filter_some, decide_eq_true_eq] at hdm
        by_cases hpos : 0 < dsize
        · rw [if_pos hpos] at hdm
          exact ⟨hdm, hpos⟩
        · rw [if_neg hpos] at hdm
          exact absurd hdm (by simp)
    obtain ⟨rfl, hpos⟩ := hdsome
    have hdmap : 0 < abdIterMapsize d := by
      obtain ⟨hat, hle, hp⟩ := hd
      exact hat.mapsize_pos (by omega)
    have hmin : min (abdIterMapsize d) (minMapsize caiters csize) ≤ minMapsize caiters csize :=
      Nat.min_le_right _ _
    obtain ⟨hdread, hd', hleft⟩ := hd.turn hpos (Nat.min_le_left _ (minMapsize caiters csize))
    have hread := map_abdIterRead hc
      (fun it hit => Nat.le_trans hmin (minMapsize_le_mapsize hit csize)) (Nat.le_trans hmin hcle)
    refine ⟨min (abdIterMapsize d) (minMapsize caiters csize), _, _, Nat.lt_min.2 ⟨hdmap, hc0⟩,
      Nat.le_trans hmin hcle, fun it hit => Nat.le_trans hmin (minMapsize_le_mapsize hit csize), hd', hleft,
      by simp only [Option.map_some, abdIterAdvance_iterAbd], ?_⟩
    rw [abdRaidzGenIterateLoop.eq_def]
    dsimp only
    rw [if_neg h0, hdm]
    dsimp only
    rw [hread, hdread]

theorem abdRaidzGenIterateLoop_pieces (f : RaidzGenFunc) : ∀ (fuel : ℕ) {caiters : List AbdIter}
    {daiter : Option AbdIter} {p csize dsize : ℕ},
    (∀ it ∈ caiters, it.At p ∧ p + csize ≤ it.iterAbd.abdSize) → GenData daiter dsize p →
    csize ≤ fuel →
    ∃ lens : List ℕ, (∀ n ∈ lens, 0 < n) ∧ lens.sum = csize ∧
      ∃ cabds', abdRaidzGenIterateLoop f fuel caiters daiter csize dsize =
          some (cabds', daiter.map (·.iterAbd)) ∧
        Abd.AllWritten p (caiters.map (·.iterAbd))
          (walkColsWith f.func lens (caiters.map (AbdIter.window p csize))
            (genDataLeft daiter dsize)) cabds'
  | fuel, caiters, daiter, p, csize, dsize, hc, hd, hfuel => by
    by_cases h0 : csize = 0
    · subst h0
      refine ⟨[], by simp, rfl, caiters.map (·.iterAbd), ?_, ?_⟩
      · rw [abdRaidzGenIterateLoop.eq_def]
        simp
      · rw [walkColsWith]
        exact Abd.AllWritten.done fun it hit => (hc it hit).1.ok
    obtain ⟨fuel, rfl⟩ : ∃ k, fuel = k + 1 := ⟨fuel - 1, by omega⟩
    obtain ⟨len, daiter', dsize', hpos, hle, hmap, hd', hleft, hdabd, hstep⟩ :=
      abdRaidzGenIterateLoop_turn f fuel hc hd h0
    -- the callback's stores have the lengths of the parity pieces it is handed
    have hlens : (f.func ((caiters.map (AbdIter.window p csize)).map (·.take len))
        ((genDataLeft daiter dsize).take len)).map List.length = caiters.map fun _ => len := by
      rw [f.length_func]
      exact length_window_take hc hle
    obtain ⟨hat', hwin', -⟩ := AbdIter.turnCols hc hmap hle hlens
    obtain ⟨lens, hlpos, hlsum, cabds', hrun, hall⟩ :=
      abdRaidzGenIterateLoop_pieces f fuel hat' hd' (by omega)
    refine ⟨len :: lens, List.forall_mem_cons.2 ⟨hpos, hlpos⟩, ?_, cabds', ?_, ?_⟩
    · rw [List.sum_cons, hlsum]
      omega
    · rw [hstep, hrun, hdabd]
    · rw [walkColsWith, ← hwin', ← hleft]
      exact AbdIter.allWritten_turn hc hmap hle hlens hall
termination_by fuel => fuel

/-- **`abd_raidz_gen_iterate` is a lockstep walk of the callback over the parity columns and the
data.** The turns cut the `csize` parity bytes into positive lengths; each turn hands the callback
the pieces of that length of every parity column and of the data while data is left (none after,
or with no data ABD), and the parity ABDs are written with what it returns. The data ABD is not
written. -/
theorem abdRaidzGenIterate_pieces (f : RaidzGenFunc) {cabds : List Abd} {dabd : Option Abd}
    {csize dsize : ℕ} (hc : ∀ c ∈ cabds, c.Ok ∧ c.StartsInside ∧ csize ≤ c.abdSize)
    (hd : dabd.elim (dsize = 0) fun d => d.Ok ∧ d.StartsInside ∧ dsize = d.abdSize) :
    ∃ lens : List ℕ, (∀ n ∈ lens, 0 < n) ∧ lens.sum = csize ∧
      ∃ cabds', abdRaidzGenIterate cabds dabd csize dsize f = some (cabds', dabd) ∧
        Abd.AllWritten 0 cabds
          (walkColsWith f.func lens (cabds.map (·.bytes.take csize)) (dabd.elim [] Abd.bytes))
          cabds' := by
  -- the data iterator starts at the data's first byte with all of it left
  have hd' : GenData (dabd.map abdIterInit) dsize 0 ∧
      genDataLeft (dabd.map abdIterInit) dsize = dabd.elim [] Abd.bytes := by
    cases dabd with
    | none => exact ⟨hd, rfl⟩
    | some d =>
      obtain ⟨hok, hin, rfl⟩ := hd
      refine ⟨⟨?_, ?_, fun _ => ?_⟩, ?_⟩ <;>
        simp [genDataLeft, abdIterInit_at hok hin]
  obtain ⟨lens, hpos, hsum, cabds', hrun, hall⟩ :=
    abdRaidzGenIterateLoop_pieces f csize (abdIterInit_cols hc) hd'.1 (Nat.le_refl _)
  refine ⟨lens, hpos, hsum, cabds', ?_, ?_⟩
  · rw [abdRaidzGenIterate, hrun, Option.map_map]
    cases dabd <;> simp
  · rwa [map_abdIterInit_iterAbd, map_abdIterInit_window, hd'.2] at hall

/-! ## `abd_raidz_rec_iterate` -/

/-- `func_raidz_rec` with its `mul` constants: handed the mapped pieces of the targets and of the
parity columns, it stores over both. -/
structure RaidzRecFunc where
  func : List (List UInt8) → List (List UInt8) → List (List UInt8) × List (List UInt8)
  length_fst : ∀ xs cs, (func xs cs).1.map List.length = xs.map List.length
  length_snd : ∀ xs cs, (func xs cs).2.map List.length = cs.map List.length

/-- The loop of `abd_raidz_rec_iterate` over the parity iterators `citers` and the target
iterators `xiters`, with `tsize` bytes left. -/
def abdRaidzRecIterateLoop (f : RaidzRecFunc) :
    ℕ → List AbdIter → List AbdIter → ℕ → Option (List Abd × List Abd)
  | fuel, citers, xiters, tsize =>
    if tsize = 0 then some (citers.map (·.iterAbd), xiters.map (·.iterAbd))
    else
      match fuel with
      | 0 => none
      | fuel + 1 =>
        let len := minMapsize xiters (minMapsize citers tsize)
        let outs := f.func (xiters.map (abdIterRead · len)) (citers.map (abdIterRead · len))
        abdRaidzRecIterateLoop f fuel ((citers.zip outs.2).map (abdIterStep len))
          ((xiters.zip outs.1).map (abdIterStep len)) (tsize - len)

/-- `abd_raidz_rec_iterate`: the parity ABDs and the target ABDs after the callback's stores. -/
def abdRaidzRecIterate (cabds tabds : List Abd) (tsize : ℕ) (f : RaidzRecFunc) :
    Option (List Abd × List Abd) :=
  abdRaidzRecIterateLoop f tsize (cabds.map abdIterInit) (tabds.map abdIterInit) tsize

theorem abdRaidzRecIterateLoop_pieces (f : RaidzRecFunc) : ∀ (fuel : ℕ) {citers xiters : List AbdIter}
    {p tsize : ℕ},
    (∀ it ∈ citers, it.At p ∧ p + tsize ≤ it.iterAbd.abdSize) →
    (∀ it ∈ xiters, it.At p ∧ p + tsize ≤ it.iterAbd.abdSize) → tsize ≤ fuel →
    ∃ lens : List ℕ, (∀ n ∈ lens, 0 < n) ∧ lens.sum = tsize ∧
      ∃ cabds' tabds', abdRaidzRecIterateLoop f fuel citers xiters tsize = some (cabds', tabds') ∧
        Abd.AllWritten p (xiters.map (·.iterAbd))
          (walkCols2 f.func lens (xiters.map (AbdIter.window p tsize))
            (citers.map (AbdIter.window p tsize))).1 tabds' ∧
        Abd.AllWritten p (citers.map (·.iterAbd))
          (walkCols2 f.func lens (xiters.map (AbdIter.window p tsize))
            (citers.map (AbdIter.window p tsize))).2 cabds'
  | fuel, citers, xiters, p, tsize, hc, hx, hfuel => by
    by_cases h0 : tsize = 0
    · subst h0
      refine ⟨[], by simp, rfl, citers.map (·.iterAbd), xiters.map (·.iterAbd), ?_, ?_, ?_⟩
      · rw [abdRaidzRecIterateLoop.eq_def]
        simp
      · exact Abd.AllWritten.done fun it hit => (hx it hit).1.ok
      · exact Abd.AllWritten.done fun it hit => (hc it hit).1.ok
    obtain ⟨fuel, rfl⟩ : ∃ k, fuel = k + 1 := ⟨fuel - 1, by omega⟩
    -- the turn is clipped by every parity and every target mapping
    have hcmap : ∀ it ∈ citers, 0 < abdIterMapsize it := fun it hit =>
      (hc it hit).1.mapsize_pos (by have := (hc it hit).2; omega)
    have hxmap : ∀ it ∈ xiters, 0 < abdIterMapsize it := fun it hit =>
      (hx it hit).1.mapsize_pos (by have := (hx it hit).2; omega)
    have hpos : 0 < minMapsize xiters (minMapsize citers tsize) :=
      minMapsize_pos hxmap (minMapsize_pos hcmap (Nat.pos_of_ne_zero h0))
    have hlec : minMapsize xiters (minMapsize citers tsize) ≤ minMapsize citers tsize :=
      minMapsize_le _ _
    have hle : minMapsize xiters (minMapsize citers tsize) ≤ tsize :=
      Nat.le_trans hlec (minMapsize_le _ _)
    have hcle : ∀ it ∈ citers, minMapsize xiters (minMapsize citers tsize) ≤ abdIterMapsize it :=
      fun it hit => Nat.le_trans hlec (minMapsize_le_mapsize hit tsize)
    have hxle : ∀ it ∈ xiters, minMapsize xiters (minMapsize citers tsize) ≤ abdIterMapsize it :=
      fun it hit => minMapsize_le_mapsize hit _
    generalize hlen : minMapsize xiters (minMapsize citers tsize) = len at hpos hle hcle hxle
    have hstep : abdRaidzRecIterateLoop f (fuel + 1) citers xiters tsize =
        abdRaidzRecIterateLoop f fuel
          ((citers.zip (f.func ((xiters.map (AbdIter.window p tsize)).map (·.take len))
            ((citers.map (AbdIter.window p tsize)).map (·.take len))).2).map (abdIterStep len))
          ((xiters.zip (f.func ((xiters.map (AbdIter.window p tsize)).map (·.take len))
            ((citers.map (AbdIter.window p tsize)).map (·.take len))).1).map (abdIterStep len))
          (tsize - len) := by
      rw [abdRaidzRecIterateLoop.eq_def]
      dsimp only
      rw [if_neg h0, hlen, map_abdIterRead hx hxle hle, map_abdIterRead hc hcle hle]
    -- the callback's stores have the lengths of the pieces it is handed
    have hxlens : (f.func ((xiters.map (AbdIter.window p tsize)).map (·.take len))
        ((citers.map (AbdIter.window p tsize)).map (·.take len))).1.map List.length =
          xiters.map fun _ => len := by
      rw [f.length_fst]
      exact length_window_take hx hle
    have hclens : (f.func ((xiters.map (AbdIter.window p tsize)).map (·.take len))
        ((citers.map (AbdIter.window p tsize)).map (·.take len))).2.map List.length =
          citers.map fun _ => len := by
      rw [f.length_snd]
      exact length_window_take hc hle
    obtain ⟨hxat, hxwin, -⟩ := AbdIter.turnCols hx hxle hle hxlens
    obtain ⟨hcat, hcwin, -⟩ := AbdIter.turnCols hc hcle hle hclens
    obtain ⟨lens, hlpos, hlsum, cabds', tabds', hrun, hxall, hcall⟩ :=
      abdRaidzRecIterateLoop_pieces f fuel hcat hxat (by omega)
    refine ⟨len :: lens, List.forall_mem_cons.2 ⟨hpos, hlpos⟩, ?_, cabds', tabds', ?_, ?_, ?_⟩
    · rw [List.sum_cons, hlsum]
      omega
    · rw [hstep, hrun]
    · rw [walkCols2, ← hxwin, ← hcwin]
      exact AbdIter.allWritten_turn hx hxle hle hxlens hxall
    · rw [walkCols2, ← hxwin, ← hcwin]
      exact AbdIter.allWritten_turn hc hcle hle hclens hcall
termination_by fuel => fuel

/-- **`abd_raidz_rec_iterate` is a lockstep walk of the callback over the targets and the parity
columns.** The turns cut the `tsize` bytes into positive lengths; each turn hands the callback the
pieces of that length of every target and every parity column, and both groups are written with
what it returns. -/
theorem abdRaidzRecIterate_pieces (f : RaidzRecFunc) {cabds tabds : List Abd} {tsize : ℕ}
    (hc : ∀ c ∈ cabds, c.Ok ∧ c.StartsInside ∧ tsize ≤ c.abdSize)
    (ht : ∀ t ∈ tabds, t.Ok ∧ t.StartsInside ∧ tsize ≤ t.abdSize) :
    ∃ lens : List ℕ, (∀ n ∈ lens, 0 < n) ∧ lens.sum = tsize ∧
      ∃ cabds' tabds', abdRaidzRecIterate cabds tabds tsize f = some (cabds', tabds') ∧
        Abd.AllWritten 0 tabds (walkCols2 f.func lens (tabds.map (·.bytes.take tsize))
          (cabds.map (·.bytes.take tsize))).1 tabds' ∧
        Abd.AllWritten 0 cabds (walkCols2 f.func lens (tabds.map (·.bytes.take tsize))
          (cabds.map (·.bytes.take tsize))).2 cabds' := by
  obtain ⟨lens, hpos, hsum, cabds', tabds', hrun, htall, hcall⟩ :=
    abdRaidzRecIterateLoop_pieces f tsize (abdIterInit_cols hc) (abdIterInit_cols ht) (Nat.le_refl _)
  simp only [map_abdIterInit_iterAbd, map_abdIterInit_window] at htall hcall
  exact ⟨lens, hpos, hsum, cabds', tabds', hrun, htall, hcall⟩

end Zfs
