import Lwfs.Client.StripedFile

/-!
A striped file as a sparse array.

`lwfs_stat_ns_entry` takes the sum of the sizes of the objects for the size of
a file. Each object reaches as far as the last byte written to it, so the sum
counts the positions that have a written one at or behind them in the same
object. This is one more than the highest position written exactly if no
object ends before that (`sparse_iff`).
-/

namespace Lwfs.Client

open SysLib SysLib.Image

/-- The size that `lwfs_stat_ns_entry` adds up over the first `n` objects. -/
def addSizes (objs : Objects) : ℕ → ℕ
  | 0 => 0
  | n + 1 => addSizes objs n + (objs n).length

/-- The size that `lwfs_stat_ns_entry` reports. -/
def statSize (f : StripedFile) (objs : Objects) : ℕ :=
  addSizes objs f.dObj.ssObjCount

/-- The objects of a new file after some writes. -/
def afterWrites (f : StripedFile) (run : List Transfer) : Objects :=
  Run.exec (fun objs t => t.write f objs) (fun _ => []) run

/-- A position that some write has written. -/
def Written (run : List Transfer) (x : ℕ) : Prop :=
  ∃ t ∈ run, ∃ j < t.buf.length, x = t.off + j

/-- One more than the highest position that has been written, or zero. -/
def extent : List Transfer → ℕ
  | [] => 0
  | t :: run =>
      max (if t.buf = [] then 0 else t.off + t.buf.length) (extent run)

theorem lt_extent {run : List Transfer} {x : ℕ} (h : Written run x) :
    x < extent run := by
  induction run with
  | nil =>
      obtain ⟨t, ht, -⟩ := h
      cases ht
  | cons t run ih =>
      obtain ⟨t', ht', j, hj, rfl⟩ := h
      rw [extent]
      rcases List.mem_cons.mp ht' with rfl | ht'
      · have hbuf : t'.buf ≠ [] := by
          intro hnil
          rw [hnil] at hj
          exact Nat.not_lt_zero j hj
        rw [if_neg hbuf]
        omega
      · have := ih ⟨t', ht', j, hj, rfl⟩
        omega

/-! ## What the objects hold -/

/-- An object reaches as far as the last position written in it. -/
def Reaching (f : StripedFile) (objs : Objects) (written : ℕ → Prop) : Prop :=
  ∀ i p, p < (objs i).length ↔
    ∃ x, written x ∧ (f.layout.locate x).1 = i ∧ p ≤ (f.layout.locate x).2

/-- What has not been written is zero where an object has it. -/
def ZeroFilled (f : StripedFile) (objs : Objects) (written : ℕ → Prop) : Prop :=
  ∀ x v, ¬ written x → cell objs (f.layout.locate x) = some v → v = 0

/-- The cells that a write visits are the places of its range. -/
theorem Transfer.Cuts.mem_cells {f : StripedFile} {t : Transfer}
    (ht : t.Cuts f .w) {p : ℕ × ℕ} :
    (∃ k, (p, k) ∈ (t.segments f .w).flatMap Move.cells) ↔
      ∃ j < t.buf.length, f.layout.locate (t.off + j) = p := by
  obtain ⟨segs, hperm, hcut⟩ := ht
  have hcells := hperm.flatMap_right Move.cells
  rw [hcut.cells] at hcells
  simp only [hcells.mem_iff, f.layout.mem_places]
  constructor
  · rintro ⟨k, j, hj, rfl, -⟩
    exact ⟨j, hj, rfl⟩
  · rintro ⟨j, hj, rfl⟩
    exact ⟨0 + j, j, hj, rfl, rfl⟩

theorem Transfer.Cuts.buffer {f : StripedFile} {t : Transfer}
    (ht : t.Cuts f .w) :
    ∀ m ∈ t.segments f .w, m.buf + m.count ≤ t.buf.length := by
  obtain ⟨segs, hperm, hcut⟩ := ht
  intro m hm
  have := hcut.buffer m (hperm.mem_iff.mp hm)
  omega

theorem Reaching.write {f : StripedFile} {objs : Objects} {written : ℕ → Prop}
    {t : Transfer} (ht : t.Cuts f .w) (h : Reaching f objs written) :
    Reaching f (t.write f objs) fun x =>
      written x ∨ ∃ j < t.buf.length, x = t.off + j := by
  intro i p
  rw [Transfer.write, lt_length_foldl_put 0 ht.buffer, h]
  constructor
  · rintro (⟨x, hx, hi, hp⟩ | ⟨y, k, hmem, hp⟩)
    · exact ⟨x, .inl hx, hi, hp⟩
    · obtain ⟨j, hj, hplace⟩ := ht.mem_cells.mp ⟨k, hmem⟩
      refine ⟨t.off + j, .inr ⟨j, hj, rfl⟩, ?_, ?_⟩
      · rw [hplace]
      · rw [hplace]
        exact hp
  · rintro ⟨x, hx | ⟨j, hj, rfl⟩, hi, hp⟩
    · exact .inl ⟨x, hx, hi, hp⟩
    · obtain ⟨k, hmem⟩ := ht.mem_cells.mpr ⟨j, hj, rfl⟩
      refine .inr ⟨_, k, ?_, hp⟩
      rw [← hi]
      exact hmem

theorem ZeroFilled.write {f : StripedFile} {objs : Objects}
    {written : ℕ → Prop} {t : Transfer} (ht : t.Cuts f .w)
    (h : ZeroFilled f objs written) :
    ZeroFilled f (t.write f objs) fun x =>
      written x ∨ ∃ j < t.buf.length, x = t.off + j := by
  intro x v hx hv
  rw [not_or] at hx
  have hvisit : ∀ k, (f.layout.locate x, k) ∉
      (t.segments f .w).flatMap Move.cells := by
    intro k hk
    obtain ⟨j, hj, hplace⟩ := ht.mem_cells.mp ⟨k, hk⟩
    exact hx.2 ⟨j, hj, (f.layout.locate_injective hplace).symm⟩
  rcases eq_fill_or_of_cell_foldl_put 0 hvisit hv with hzero | hcell
  · exact hzero
  · exact h x v hx.1 hcell

theorem Reaching.congr {f : StripedFile} {objs : Objects}
    {written written' : ℕ → Prop} (h : Reaching f objs written)
    (hiff : ∀ x, written x ↔ written' x) : Reaching f objs written' := by
  intro i p
  simp only [← hiff]
  exact h i p

theorem ZeroFilled.congr {f : StripedFile} {objs : Objects}
    {written written' : ℕ → Prop} (h : ZeroFilled f objs written)
    (hiff : ∀ x, written x ↔ written' x) : ZeroFilled f objs written' := by
  intro x v hx hv
  exact h x v (mt (hiff x).mp hx) hv

theorem written_cons (t : Transfer) (run : List Transfer)
    (written : ℕ → Prop) (x : ℕ) :
    (written x ∨ ∃ j < t.buf.length, x = t.off + j) ∨ Written run x ↔
      written x ∨ Written (t :: run) x := by
  simp only [Written, List.mem_cons, exists_eq_or_imp, or_assoc]

theorem reaching_run {f : StripedFile} {objs : Objects} {run : List Transfer}
    {written : ℕ → Prop} (hrun : ∀ t ∈ run, t.Cuts f .w)
    (h : Reaching f objs written) :
    Reaching f (Run.exec (fun objs t => t.write f objs) objs run) fun x =>
      written x ∨ Written run x := by
  induction run generalizing objs written with
  | nil =>
      apply h.congr
      simp [Written]
  | cons t run ih =>
      have hrest := ih (fun t' ht' => hrun t' (List.mem_cons_of_mem t ht'))
        (h.write (hrun t List.mem_cons_self))
      exact hrest.congr (written_cons t run written)

theorem zeroFilled_run {f : StripedFile} {objs : Objects} {run : List Transfer}
    {written : ℕ → Prop} (hrun : ∀ t ∈ run, t.Cuts f .w)
    (h : ZeroFilled f objs written) :
    ZeroFilled f (Run.exec (fun objs t => t.write f objs) objs run) fun x =>
      written x ∨ Written run x := by
  induction run generalizing objs written with
  | nil =>
      apply h.congr
      simp [Written]
  | cons t run ih =>
      have hrest := ih (fun t' ht' => hrun t' (List.mem_cons_of_mem t ht'))
        (h.write (hrun t List.mem_cons_self))
      exact hrest.congr (written_cons t run written)

/-! ## The size -/

/-- An object has the place of a position. -/
def Covered (f : StripedFile) (objs : Objects) (y : ℕ) : Prop :=
  (f.layout.locate y).2 < (objs (f.layout.locate y).1).length

instance (f : StripedFile) (objs : Objects) : DecidablePred (Covered f objs) :=
  fun _ => inferInstanceAs (Decidable (_ < _))

/-- The places that the first `n` objects have. -/
def placesOf (objs : Objects) (n : ℕ) : List (ℕ × ℕ) :=
  (List.range n).flatMap fun i => (List.range (objs i).length).map (Prod.mk i)

theorem placesOf_succ (objs : Objects) (n : ℕ) :
    placesOf objs (n + 1) =
      placesOf objs n ++ (List.range (objs n).length).map (Prod.mk n) := by
  simp [placesOf, List.range_succ]

theorem mem_placesOf {objs : Objects} {n : ℕ} {p : ℕ × ℕ} :
    p ∈ placesOf objs n ↔ p.1 < n ∧ p.2 < (objs p.1).length := by
  obtain ⟨i, a⟩ := p
  simp only [placesOf, List.mem_flatMap, List.mem_range, List.mem_map,
    Prod.mk.injEq]
  constructor
  · rintro ⟨i, hi, a, ha, rfl, rfl⟩
    exact ⟨hi, ha⟩
  · rintro ⟨hi, ha⟩
    exact ⟨i, hi, a, ha, rfl, rfl⟩

theorem length_placesOf (objs : Objects) (n : ℕ) :
    (placesOf objs n).length = addSizes objs n := by
  induction n with
  | zero => rfl
  | succ n ih => simp [placesOf_succ, addSizes, ih]

theorem nodup_placesOf (objs : Objects) (n : ℕ) : (placesOf objs n).Nodup := by
  induction n with
  | zero => exact List.nodup_nil
  | succ n ih =>
      rw [placesOf_succ, List.nodup_append]
      refine ⟨ih, ?_, ?_⟩
      · apply List.Nodup.map _ List.nodup_range
        intro a b hab
        exact (Prod.mk.inj hab).2
      · rintro p hp q hq rfl
        obtain ⟨a, -, rfl⟩ := List.mem_map.mp hq
        exact Nat.lt_irrefl n (mem_placesOf.mp hp).1

/-- The size counts the positions whose places the objects have. -/
theorem statSize_eq {f : StripedFile} {objs : Objects} {n : ℕ}
    (hn : ∀ y, Covered f objs y → y < n) :
    statSize f objs =
      ((List.range n).filter fun y => Covered f objs y).length := by
  have hperm : (placesOf objs f.dObj.ssObjCount).Perm
      (((List.range n).filter fun y => Covered f objs y).map
        f.layout.locate) := by
    rw [List.perm_ext_iff_of_nodup (nodup_placesOf _ _)
      ((List.nodup_range.filter _).map f.layout.locate_injective)]
    intro p
    simp only [mem_placesOf, List.mem_map, List.mem_filter, List.mem_range,
      decide_eq_true_eq]
    constructor
    · rintro ⟨hi, ha⟩
      have hplace : f.layout.locate (f.layout.position p) = p :=
        f.layout.locate_position hi
      have hcovered : Covered f objs (f.layout.position p) := by
        rw [Covered, hplace]
        exact ha
      exact ⟨f.layout.position p, ⟨hn _ hcovered, hcovered⟩, hplace⟩
    · rintro ⟨y, ⟨-, hcovered⟩, rfl⟩
      exact ⟨f.layout.locate_fst_lt y, hcovered⟩
  rw [statSize, ← length_placesOf, hperm.length_eq, List.length_map]

theorem statSize_eq_iff {f : StripedFile} {objs : Objects} {n : ℕ}
    (hn : ∀ y, Covered f objs y → y < n) :
    statSize f objs = n ↔ ∀ y < n, Covered f objs y := by
  rw [statSize_eq hn]
  have hlength : (List.range n).length = n := List.length_range
  constructor
  · intro h y hy
    have hall := List.length_filter_eq_length_iff.mp (h.trans hlength.symm)
    exact of_decide_eq_true (hall y (List.mem_range.mpr hy))
  · intro h
    refine (List.length_filter_eq_length_iff.mpr ?_).trans hlength
    intro y hy
    exact decide_eq_true (h y (List.mem_range.mp hy))

/-! ## One array -/

/-- A striped file whose chunks have a length that is an `int`. -/
structure SizedFile extends StripedFile where
  chunk_int : dObj.chunkSize < 2147483648

/-- Every call of `sso_doio` succeeds, for a length that is a `size_t`. -/
def Transfer.Succeeds (t : Transfer) : Prop :=
  Client.Succeeds t.calls ∧ t.buf.length < 18446744073709551616

theorem Transfer.Succeeds.cuts {t : Transfer} (ht : t.Succeeds) (f : SizedFile)
    (op : LioOp) (hread : op = .r → t.fpos + t.buf.length ≤ t.stSize) :
    t.Cuts f.toStripedFile op := by
  have hchunk := f.chunk_int
  have hfirst : min t.buf.length (f.layout.chunk - t.off % f.layout.chunk) <
      2147483648 := by
    rw [f.layout_chunk]
    omega
  exact Transfer.cuts_of_succeeds f.toStripedFile op ht.1 ht.2 hfirst hread

/-- After the writes of a run the size is one more than the highest position
written, and a read within it, by an inode that has this size, finds the last
value written to each position, or zero. -/
structure SparseArray (f : SizedFile) (run : List Transfer) : Prop where
  size : statSize f.toStripedFile (afterWrites f.toStripedFile run) =
    extent run
  read : ∀ t : Transfer, t.Succeeds → t.fpos = t.off →
    t.stSize = statSize f.toStripedFile (afterWrites f.toStripedFile run) →
    t.off + t.buf.length ≤ t.stSize → ∀ j < t.buf.length,
      (t.read f.toStripedFile (afterWrites f.toStripedFile run))[j]? =
        some ((lastWritten run (t.off + j)).getD 0)

/-- Every position below the extent has one at or behind it, in the same
object, that has been written. -/
def Dense (f : SizedFile) (run : List Transfer) : Prop :=
  ∀ y < extent run, ∃ x, Written run x ∧
    (f.layout.locate x).1 = (f.layout.locate y).1 ∧ y ≤ x

theorem not_written_of_none {run : List Transfer} {file : ℕ → Option UInt8}
    {x : ℕ} (h : Run.exec (fun file t => overlay file t.off t.buf) file run x =
      none) : file x = none ∧ ¬ Written run x := by
  induction run generalizing file with
  | nil =>
      refine ⟨h, ?_⟩
      rintro ⟨t, ht, -⟩
      cases ht
  | cons t run ih =>
      obtain ⟨hfile, hrest⟩ := ih h
      simp only at hfile
      have hout : ∀ j < t.buf.length, x ≠ t.off + j := by
        rintro j hj rfl
        rw [overlay_inside file hj, List.getElem?_eq_none_iff] at hfile
        omega
      rw [overlay_outside file hout] at hfile
      refine ⟨hfile, ?_⟩
      rintro ⟨t', ht', j, hj, hx⟩
      rcases List.mem_cons.mp ht' with rfl | ht'
      · exact hout j hj hx
      · exact hrest ⟨t', ht', j, hj, hx⟩

section

variable {f : SizedFile} {run : List Transfer}
  (hrun : ∀ t ∈ run, t.Succeeds)

include hrun

theorem cuts_of_run : ∀ t ∈ run, t.Cuts f.toStripedFile .w := by
  intro t ht
  apply (hrun t ht).cuts f
  intro h
  cases h

/-- An object has the place of a position exactly if one at or behind it in
the object has been written. -/
theorem covered_iff (y : ℕ) :
    Covered f.toStripedFile (afterWrites f.toStripedFile run) y ↔
      ∃ x, Written run x ∧
        (f.layout.locate x).1 = (f.layout.locate y).1 ∧ y ≤ x := by
  have hempty : Reaching f.toStripedFile (fun _ => []) fun _ => False := by
    intro i p
    simp
  have hreach := reaching_run (cuts_of_run (f := f) hrun) hempty
  rw [Covered, afterWrites, hreach]
  constructor
  · rintro ⟨x, hx, hi, hle⟩
    exact ⟨x, hx.resolve_left id, hi,
      (f.layout.locate_snd_le_iff hi.symm).mp hle⟩
  · rintro ⟨x, hx, hi, hle⟩
    exact ⟨x, .inr hx, hi, (f.layout.locate_snd_le_iff hi.symm).mpr hle⟩

theorem statSize_eq_extent_iff :
    statSize f.toStripedFile (afterWrites f.toStripedFile run) =
      extent run ↔ Dense f run := by
  have hbelow : ∀ y,
      Covered f.toStripedFile (afterWrites f.toStripedFile run) y →
        y < extent run := by
    intro y hy
    obtain ⟨x, hx, -, hle⟩ := (covered_iff hrun y).mp hy
    have := lt_extent hx
    omega
  rw [statSize_eq_iff hbelow]
  simp only [covered_iff hrun]
  rfl

/-- Where an object has the place of a position, it holds what was written
there last, or zero. -/
theorem cell_afterWrites {y : ℕ}
    (hy : Covered f.toStripedFile (afterWrites f.toStripedFile run) y) :
    cell (afterWrites f.toStripedFile run) (f.layout.locate y) =
      some ((lastWritten run y).getD 0) := by
  have hcuts := cuts_of_run (f := f) hrun
  have hholds : Holds f.toStripedFile (afterWrites f.toStripedFile run)
      (lastWritten run) := by
    apply holds_run f.toStripedFile hcuts
    intro x v hx
    cases hx
  have hzero : ZeroFilled f.toStripedFile (fun _ => []) fun _ => False := by
    intro x v _ hv
    simp [cell] at hv
  cases hlast : lastWritten run y with
  | some v => exact hholds y v hlast
  | none =>
      obtain ⟨-, hnot⟩ := not_written_of_none hlast
      obtain ⟨v, hcell⟩ : ∃ v, cell (afterWrites f.toStripedFile run)
          (f.layout.locate y) = some v := ⟨_, List.getElem?_eq_getElem hy⟩
      have hv : v = 0 :=
        zeroFilled_run hcuts hzero y v (by simpa using hnot) hcell
      rw [hcell, hv, Option.getD_none]

end

/-- A striped file is one sparse array after a run of writes exactly if no
object of it ends before a position of the file that lies in it. -/
theorem sparseArray_iff (f : SizedFile) {run : List Transfer}
    (hrun : ∀ t ∈ run, t.Succeeds) : SparseArray f run ↔ Dense f run := by
  rw [← statSize_eq_extent_iff hrun]
  constructor
  · exact fun h => h.size
  · intro hsize
    refine ⟨hsize, ?_⟩
    intro t ht hpos hsession hend j hj
    have hdense := (statSize_eq_extent_iff hrun).mp hsize
    have hcovered := (covered_iff hrun (t.off + j)).mpr
      (hdense (t.off + j) (by omega))
    have hcuts := ht.cuts f .r fun _ => by omega
    exact getElem?_read f.toStripedFile hcuts (fun _ _ h => h) hj
      (cell_afterWrites hrun hcovered)

/-- A file over two objects, in chunks of four bytes. -/
def sizedTwoObjects : SizedFile := ⟨twoObjects, chunkSize_twoObjects⟩

/-- One byte in the second object, and none in the first. -/
theorem not_sparseArray_gap :
    ¬ SparseArray sizedTwoObjects [inOrder 4 [1] 0] := by
  intro h
  have hrun : ∀ t ∈ [inOrder 4 [1] 0], t.Succeeds := by
    intro t ht
    obtain rfl := List.mem_singleton.mp ht
    exact ⟨fun _ => rfl, by decide⟩
  have hdense := (statSize_eq_extent_iff hrun).mp h.size
  obtain ⟨x, ⟨t, ht, j, hj, rfl⟩, hobject, -⟩ := hdense 0 (by decide)
  obtain rfl := List.mem_singleton.mp ht
  have hj : j < 1 := hj
  obtain rfl : j = 0 := by omega
  revert hobject
  decide

/-- One byte in each object. -/
theorem sparseArray_iff_dense :
    SparseArray sizedTwoObjects [inOrder 4 [1] 0, inOrder 3 [2] 5] := by
  rw [sparseArray_iff sizedTwoObjects]
  · intro y hy
    have hy : y < 5 := hy
    have hlast : Written [inOrder 4 [1] 0, inOrder 3 [2] 5] 4 :=
      ⟨inOrder 4 [1] 0, by simp, 0, by decide, rfl⟩
    have hother : Written [inOrder 4 [1] 0, inOrder 3 [2] 5] 3 :=
      ⟨inOrder 3 [2] 5, by simp, 0, by decide, rfl⟩
    by_cases hfour : y = 4
    · subst hfour
      exact ⟨4, hlast, rfl, Nat.le_refl 4⟩
    · refine ⟨3, hother, ?_, by omega⟩
      obtain rfl | rfl | rfl | rfl : y = 0 ∨ y = 1 ∨ y = 2 ∨ y = 3 := by omega
      · rfl
      · rfl
      · rfl
      · rfl
  · intro t ht
    rcases List.mem_cons.mp ht with rfl | ht
    · exact ⟨fun _ => rfl, by decide⟩
    · obtain rfl := List.mem_singleton.mp ht
      exact ⟨fun _ => rfl, by decide⟩

end Lwfs.Client
