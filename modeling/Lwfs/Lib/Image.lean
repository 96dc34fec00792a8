import Mathlib.Tactic.Common
import Mathlib.Data.List.GetD
import Mathlib.Data.List.Nodup
import Mathlib.Logic.Function.Basic

/-!
Images: finite arrays that are read and written at a position.

An image is what a file of a file system holds. A read returns the cells it
finds, so it is short at the end of the image. A write may begin beyond the
end, and the gap is then filled. The second half is about several images and
a buffer, between which runs of cells are moved: after the moves of a list
that visit no cell twice, every cell they visit holds what was moved there,
in whatever order they were made.
-/

namespace SysLib

namespace Image

variable {α ι : Type*}

/-- The `len` cells from `off` on, as far as the image goes. -/
def read (img : List α) (off len : ℕ) : List α := (img.drop off).take len

/-- The image with `data` written at `off`. A write of nothing changes
nothing, and a write beyond the end fills the gap with `fill`. -/
def write (fill : α) (img : List α) (off : ℕ) (data : List α) : List α :=
  if data = [] then img
  else img.take off ++ List.replicate (off - img.length) fill ++ data ++
    img.drop (off + data.length)

theorem getElem?_read (img : List α) (off len i : ℕ) :
    (read img off len)[i]? = if i < len then img[off + i]? else none := by
  rw [read, List.getElem?_take, List.getElem?_drop]

@[simp] theorem length_read (img : List α) (off len : ℕ) :
    (read img off len).length = min len (img.length - off) := by
  rw [read, List.length_take, List.length_drop]

@[simp] theorem write_nil (fill : α) (img : List α) (off : ℕ) :
    write fill img off [] = img := if_pos rfl

theorem length_write {fill : α} {img : List α} {off : ℕ} {data : List α}
    (hdata : data ≠ []) :
    (write fill img off data).length =
      max img.length (off + data.length) := by
  rw [write, if_neg hdata]
  simp only [List.length_append, List.length_take, List.length_replicate,
    List.length_drop]
  omega

/-- The cells that a write of something leaves at each position. -/
theorem getElem?_write {fill : α} {img : List α} {off : ℕ} {data : List α}
    (hdata : data ≠ []) (i : ℕ) :
    (write fill img off data)[i]? =
      if i < off then if i < img.length then img[i]? else some fill
      else if i < off + data.length then data[i - off]? else img[i]? := by
  rw [write, if_neg hdata, List.append_assoc, List.append_assoc]
  by_cases hi : i < off
  · rw [if_pos hi]
    by_cases hlen : i < img.length
    · rw [if_pos hlen, List.getElem?_append_left (by simp; omega),
        List.getElem?_take, if_pos hi]
    · rw [if_neg hlen, List.getElem?_append_right (by simp; omega),
        List.getElem?_append_left (by simp; omega),
        List.getElem?_replicate_of_lt (by simp; omega)]
  · rw [if_neg hi, List.getElem?_append_right (by simp; omega),
      List.getElem?_append_right (by simp; omega)]
    have hpos : i - (img.take off).length -
        (List.replicate (off - img.length) fill).length = i - off := by
      simp only [List.length_take, List.length_replicate]
      omega
    rw [hpos]
    by_cases hend : i < off + data.length
    · rw [if_pos hend, List.getElem?_append_left (by omega)]
    · rw [if_neg hend, List.getElem?_append_right (by omega),
        List.getElem?_drop]
      congr 1
      omega

theorem write_at_end (fill : α) (img data : List α) :
    write fill img img.length data = img ++ data := by
  by_cases hdata : data = []
  · simp [hdata]
  · simp [write, hdata]

/-- What stands between two images is read by its place and length. -/
theorem read_append (front mid behind : List α) :
    read (front ++ (mid ++ behind)) front.length mid.length = mid := by
  rw [read, List.drop_left, List.take_left]

theorem getElem?_write_inside (fill : α) (img : List α) {off i : ℕ}
    {data : List α} (hlo : off ≤ i) (hhi : i < off + data.length) :
    (write fill img off data)[i]? = data[i - off]? := by
  have hdata : data ≠ [] := by
    rintro rfl
    simp only [List.length_nil] at hhi
    omega
  rw [getElem?_write hdata, if_neg (by omega), if_pos hhi]

theorem getElem?_write_outside (fill : α) {img : List α} {off i : ℕ}
    {data : List α} (hout : i < off ∨ off + data.length ≤ i)
    (hi : i < img.length) :
    (write fill img off data)[i]? = img[i]? := by
  by_cases hdata : data = []
  · rw [hdata, write_nil]
  · rw [getElem?_write hdata]
    by_cases hlt : i < off
    · rw [if_pos hlt, if_pos hi]
    · rw [if_neg hlt, if_neg (by omega)]

/-- A cell that a write does not reach keeps its value. -/
theorem getElem?_write_of_some (fill : α) {img : List α} {off i : ℕ} {v : α}
    {data : List α} (hout : i < off ∨ off + data.length ≤ i)
    (hv : img[i]? = some v) : (write fill img off data)[i]? = some v := by
  rw [getElem?_write_outside fill hout (List.getElem?_eq_some_iff.mp hv).1, hv]

/-- A read gives some data exactly if the image has it there. -/
theorem read_eq_iff {img : List α} {off : ℕ} {data : List α} :
    read img off data.length = data ↔
      ∀ j < data.length, img[off + j]? = data[j]? := by
  constructor
  · intro h j hj
    have hget := getElem?_read img off data.length j
    rw [h, if_pos hj] at hget
    exact hget.symm
  · intro h
    apply List.ext_getElem?
    intro j
    rw [getElem?_read]
    split_ifs with hj
    · exact h j hj
    · rw [List.getElem?_eq_none (by omega)]

theorem read_write_self (fill : α) (img : List α) (off : ℕ) (data : List α) :
    read (write fill img off data) off data.length = data := by
  rw [read_eq_iff]
  intro j hj
  rw [getElem?_write_inside fill img (by omega) (by omega),
    Nat.add_sub_cancel_left]

/-- What stands apart from a write is still read. -/
theorem read_write_of_apart (fill : α) {img : List α} {off off' : ℕ}
    {data data' : List α}
    (hapart : off' + data'.length ≤ off ∨ off + data.length ≤ off')
    (h : read img off' data'.length = data') :
    read (write fill img off data) off' data'.length = data' := by
  rw [read_eq_iff] at h ⊢
  intro j hj
  have hv := h j hj
  rw [List.getElem?_eq_getElem hj] at hv ⊢
  exact getElem?_write_of_some fill (by omega) hv

/-- What has been written last at each position: `file` with `data` laid over
it at `off`. -/
def overlay (file : ℕ → Option α) (off : ℕ) (data : List α) : ℕ → Option α :=
  fun x => if off ≤ x ∧ x < off + data.length then data[x - off]? else file x

theorem overlay_inside (file : ℕ → Option α) {off j : ℕ} {data : List α}
    (hj : j < data.length) :
    overlay file off data (off + j) = data[j]? := by
  rw [overlay, if_pos (by omega), Nat.add_sub_cancel_left]

theorem overlay_outside (file : ℕ → Option α) {off x : ℕ} {data : List α}
    (hx : ∀ j < data.length, x ≠ off + j) :
    overlay file off data x = file x := by
  rw [overlay, if_neg]
  rintro ⟨hlo, hhi⟩
  exact hx (x - off) (by omega) (by omega)

/-! ## Moves between several images and a buffer -/

/-- A run of `count` cells of the image `store`, from `off` on, and of a
buffer, from `buf` on. -/
structure Move (ι : Type*) where
  store : ι
  off : ℕ
  buf : ℕ
  count : ℕ
  deriving DecidableEq

/-- The cell at a place of the images. -/
def cell (imgs : ι → List α) (p : ι × ℕ) : Option α := (imgs p.1)[p.2]?

namespace Move

/-- The cells of the images that a move visits, each with the position in the
buffer that goes with it, in order. -/
def cells (m : Move ι) : List ((ι × ℕ) × ℕ) :=
  (List.range m.count).map fun j => ((m.store, m.off + j), m.buf + j)

theorem mem_cells {m : Move ι} {p : ι × ℕ} {k : ℕ} :
    (p, k) ∈ m.cells ↔
      ∃ j < m.count, p = (m.store, m.off + j) ∧ k = m.buf + j := by
  simp only [cells, List.mem_map, List.mem_range, Prod.mk.injEq]
  constructor
  · rintro ⟨j, hj, hp, hk⟩
    exact ⟨j, hj, hp.symm, hk.symm⟩
  · rintro ⟨j, hj, hp, hk⟩
    exact ⟨j, hj, hp.symm, hk.symm⟩

/-- The buffer after the cells of the images have been read into it. -/
def fetch (fill : α) (imgs : ι → List α) (buf : List α) (m : Move ι) :
    List α :=
  write fill buf m.buf (read (imgs m.store) m.off m.count)

theorem getElem?_fetch_of_mem (fill : α) {imgs : ι → List α} (buf : List α)
    {m : Move ι} {p : ι × ℕ} {k : ℕ} {v : α} (hmem : (p, k) ∈ m.cells)
    (hv : cell imgs p = some v) : (m.fetch fill imgs buf)[k]? = some v := by
  obtain ⟨j, hj, rfl, rfl⟩ := mem_cells.mp hmem
  have hin : m.off + j < (imgs m.store).length :=
    (List.getElem?_eq_some_iff.mp hv).1
  have hlen := length_read (imgs m.store) m.off m.count
  rw [fetch, getElem?_write_inside fill _ (by omega) (by omega),
    getElem?_read, if_pos (by omega), Nat.add_sub_cancel_left]
  exact hv

theorem getElem?_fetch_of_notMem (fill : α) (imgs : ι → List α)
    {buf : List α} {m : Move ι} {k : ℕ} {v : α}
    (hk : ∀ p, (p, k) ∉ m.cells) (hv : buf[k]? = some v) :
    (m.fetch fill imgs buf)[k]? = some v := by
  apply getElem?_write_of_some fill _ hv
  by_contra hx
  have hlen := length_read (imgs m.store) m.off m.count
  apply hk (m.store, m.off + (k - m.buf))
  exact mem_cells.mpr ⟨k - m.buf, by omega, rfl, by omega⟩

variable [DecidableEq ι]

/-- The images after the cells of the buffer have been written to them. -/
def put (fill : α) (buf : List α) (imgs : ι → List α) (m : Move ι) :
    ι → List α :=
  Function.update imgs m.store
    (write fill (imgs m.store) m.off (read buf m.buf m.count))

theorem cell_put_of_mem (fill : α) {buf : List α} (imgs : ι → List α)
    {m : Move ι} {p : ι × ℕ} {k : ℕ} (hmem : (p, k) ∈ m.cells)
    (hbuf : m.buf + m.count ≤ buf.length) :
    cell (m.put fill buf imgs) p = buf[k]? := by
  obtain ⟨j, hj, rfl, rfl⟩ := mem_cells.mp hmem
  have hlen : (read buf m.buf m.count).length = m.count := by
    rw [length_read]
    omega
  show (Function.update imgs m.store _ m.store)[m.off + j]? = _
  rw [Function.update_self, getElem?_write_inside fill _ (by omega) (by omega),
    getElem?_read, if_pos (by omega), Nat.add_sub_cancel_left]

theorem cell_put_of_notMem (fill : α) (buf : List α) {imgs : ι → List α}
    {m : Move ι} {p : ι × ℕ} {v : α} (hp : ∀ k, (p, k) ∉ m.cells)
    (hv : cell imgs p = some v) :
    cell (m.put fill buf imgs) p = some v := by
  obtain ⟨i, x⟩ := p
  by_cases hi : i = m.store
  · subst hi
    show (Function.update imgs m.store _ m.store)[x]? = _
    rw [Function.update_self]
    apply getElem?_write_of_some fill _ hv
    by_contra hx
    have hle : (read buf m.buf m.count).length ≤ m.count := by
      rw [length_read]
      omega
    apply hp (m.buf + (x - m.off))
    exact mem_cells.mpr ⟨x - m.off, by omega, by
      congr 1
      omega, rfl⟩
  · show (Function.update imgs m.store _ i)[x]? = _
    rw [Function.update_of_ne hi]
    exact hv

/-- A cell that a put does not visit keeps its value or lies in a gap that has
been filled. -/
theorem eq_fill_or_of_cell_put (fill : α) {buf : List α} {imgs : ι → List α}
    {m : Move ι} {p : ι × ℕ} {v : α} (hp : ∀ k, (p, k) ∉ m.cells)
    (hv : cell (m.put fill buf imgs) p = some v) :
    v = fill ∨ cell imgs p = some v := by
  obtain ⟨i, x⟩ := p
  by_cases hi : i = m.store
  · subst hi
    have hlen := length_read buf m.buf m.count
    have hput : (write fill (imgs m.store) m.off
        (read buf m.buf m.count))[x]? = some v := by
      rw [← hv]
      show _ = (Function.update imgs m.store _ m.store)[x]?
      rw [Function.update_self]
    by_cases hdata : read buf m.buf m.count = []
    · rw [hdata, write_nil] at hput
      exact .inr hput
    · rw [getElem?_write hdata] at hput
      split_ifs at hput with hoff hin hend
      · exact .inr hput
      · rw [Option.some.injEq] at hput
        exact .inl hput.symm
      · -- the cell is one that the put visits
        exfalso
        apply hp (m.buf + (x - m.off))
        refine mem_cells.mpr ⟨x - m.off, by omega, ?_, rfl⟩
        congr 1
        omega
      · exact .inr hput
  · have hput : (Function.update imgs m.store _ i)[x]? = some v := hv
    rw [Function.update_of_ne hi] at hput
    exact .inr hput

/-- A put makes an image as long as what is put into it needs. -/
theorem lt_length_put (fill : α) {buf : List α} {imgs : ι → List α}
    {m : Move ι} (hbuf : m.buf + m.count ≤ buf.length) (i : ι) (x : ℕ) :
    x < (m.put fill buf imgs i).length ↔
      x < (imgs i).length ∨ ∃ y k, ((i, y), k) ∈ m.cells ∧ x ≤ y := by
  have hlen : (read buf m.buf m.count).length = m.count := by
    rw [length_read]
    omega
  have hcells : (∃ y k, ((i, y), k) ∈ m.cells ∧ x ≤ y) ↔
      i = m.store ∧ 0 < m.count ∧ x < m.off + m.count := by
    simp only [mem_cells, Prod.mk.injEq]
    constructor
    · rintro ⟨y, k, ⟨j, hj, ⟨hi, rfl⟩, -⟩, hx⟩
      exact ⟨hi, by omega, by omega⟩
    · rintro ⟨hi, hpos, hx⟩
      exact ⟨m.off + (m.count - 1), _, ⟨m.count - 1, by omega, ⟨hi, rfl⟩, rfl⟩,
        by omega⟩
  rw [hcells, put]
  by_cases hi : i = m.store
  · subst hi
    rw [Function.update_self]
    by_cases hdata : read buf m.buf m.count = []
    · rw [hdata, write_nil]
      have hzero : m.count = 0 := by
        rw [← hlen, hdata]
        rfl
      constructor
      · exact .inl
      · rintro (h | ⟨-, hpos, -⟩)
        · exact h
        · omega
    · have hpos := List.length_pos_iff.mpr hdata
      rw [length_write hdata, hlen]
      rw [hlen] at hpos
      constructor
      · intro h
        by_cases hin : x < (imgs m.store).length
        · exact .inl hin
        · exact .inr ⟨rfl, by omega, by omega⟩
      · rintro (h | ⟨-, -, h⟩)
        · omega
        · omega
  · rw [Function.update_of_ne hi]
    simp [hi]

end Move

/-- A position of the buffer that no move of a list visits keeps its value. -/
theorem getElem?_foldl_fetch_of_notMem (fill : α) (imgs : ι → List α)
    {buf : List α} {moves : List (Move ι)} {k : ℕ} {v : α}
    (hk : ∀ p, (p, k) ∉ moves.flatMap Move.cells) (hv : buf[k]? = some v) :
    (moves.foldl (Move.fetch fill imgs) buf)[k]? = some v := by
  induction moves generalizing buf with
  | nil => exact hv
  | cons m moves ih =>
      simp only [List.flatMap_cons, List.mem_append, not_or] at hk
      exact ih (fun p => (hk p).2)
        (m.getElem?_fetch_of_notMem fill imgs (fun p => (hk p).1) hv)

/-- Where no position of the buffer is visited twice, every position that a
list of moves visits ends with what the images hold there. -/
theorem getElem?_foldl_fetch_of_mem (fill : α) {imgs : ι → List α}
    (buf : List α) {moves : List (Move ι)} {p : ι × ℕ} {k : ℕ} {v : α}
    (hnodup : ((moves.flatMap Move.cells).map Prod.snd).Nodup)
    (hmem : (p, k) ∈ moves.flatMap Move.cells)
    (hv : cell imgs p = some v) :
    (moves.foldl (Move.fetch fill imgs) buf)[k]? = some v := by
  induction moves generalizing buf with
  | nil => simp at hmem
  | cons m moves ih =>
      rw [List.flatMap_cons, List.map_append, List.nodup_append] at hnodup
      obtain ⟨-, hrest, hdisjoint⟩ := hnodup
      rw [List.flatMap_cons, List.mem_append] at hmem
      obtain hm | hmoves := hmem
      · have hlater : ∀ p', (p', k) ∉ moves.flatMap Move.cells := by
          intro p' hp'
          exact hdisjoint k (List.mem_map.mpr ⟨(p, k), hm, rfl⟩) k
            (List.mem_map.mpr ⟨(p', k), hp', rfl⟩) rfl
        show (moves.foldl _ (m.fetch fill imgs buf))[k]? = _
        exact getElem?_foldl_fetch_of_notMem fill imgs hlater
          (m.getElem?_fetch_of_mem fill buf hm hv)
      · exact ih _ hrest hmoves

variable [DecidableEq ι]

/-- A cell that no move of a list visits keeps its value. -/
theorem cell_foldl_put_of_notMem (fill : α) (buf : List α) {imgs : ι → List α}
    {moves : List (Move ι)} {p : ι × ℕ} {v : α}
    (hp : ∀ k, (p, k) ∉ moves.flatMap Move.cells)
    (hv : cell imgs p = some v) :
    cell (moves.foldl (Move.put fill buf) imgs) p = some v := by
  induction moves generalizing imgs with
  | nil => exact hv
  | cons m moves ih =>
      simp only [List.flatMap_cons, List.mem_append, not_or] at hp
      exact ih (fun k => (hp k).2)
        (m.cell_put_of_notMem fill buf (fun k => (hp k).1) hv)

/-- A cell that no move of a list visits keeps its value or lies in a gap that
has been filled. -/
theorem eq_fill_or_of_cell_foldl_put (fill : α) {buf : List α}
    {imgs : ι → List α} {moves : List (Move ι)} {p : ι × ℕ} {v : α}
    (hp : ∀ k, (p, k) ∉ moves.flatMap Move.cells)
    (hv : cell (moves.foldl (Move.put fill buf) imgs) p = some v) :
    v = fill ∨ cell imgs p = some v := by
  induction moves generalizing imgs with
  | nil => exact .inr hv
  | cons m moves ih =>
      simp only [List.flatMap_cons, List.mem_append, not_or] at hp
      rcases ih (fun k => (hp k).2) hv with hfill | hcell
      · exact .inl hfill
      · exact m.eq_fill_or_of_cell_put fill (fun k => (hp k).1) hcell

/-- A list of moves makes the images as long as what is put into them
needs. -/
theorem lt_length_foldl_put (fill : α) {buf : List α} {imgs : ι → List α}
    {moves : List (Move ι)} (hbuf : ∀ m ∈ moves, m.buf + m.count ≤ buf.length)
    (i : ι) (x : ℕ) :
    x < (moves.foldl (Move.put fill buf) imgs i).length ↔
      x < (imgs i).length ∨
        ∃ y k, ((i, y), k) ∈ moves.flatMap Move.cells ∧ x ≤ y := by
  induction moves generalizing imgs with
  | nil => simp
  | cons m moves ih =>
      rw [List.foldl_cons, ih fun m' hm' =>
        hbuf m' (List.mem_cons_of_mem m hm'),
        m.lt_length_put fill (hbuf m List.mem_cons_self)]
      simp only [List.flatMap_cons, List.mem_append]
      constructor
      · rintro ((h | ⟨y, k, hmem, hle⟩) | ⟨y, k, hmem, hle⟩)
        · exact .inl h
        · exact .inr ⟨y, k, .inl hmem, hle⟩
        · exact .inr ⟨y, k, .inr hmem, hle⟩
      · rintro (h | ⟨y, k, hmem | hmem, hle⟩)
        · exact .inl (.inl h)
        · exact .inl (.inr ⟨y, k, hmem, hle⟩)
        · exact .inr ⟨y, k, hmem, hle⟩

/-- Where no cell of the images is visited twice, every cell that a list of
moves visits ends with the cell of the buffer that goes with it. -/
theorem cell_foldl_put_of_mem (fill : α) {buf : List α} (imgs : ι → List α)
    {moves : List (Move ι)} {p : ι × ℕ} {k : ℕ}
    (hnodup : ((moves.flatMap Move.cells).map Prod.fst).Nodup)
    (hbuf : ∀ m ∈ moves, m.buf + m.count ≤ buf.length)
    (hmem : (p, k) ∈ moves.flatMap Move.cells) :
    cell (moves.foldl (Move.put fill buf) imgs) p = buf[k]? := by
  induction moves generalizing imgs with
  | nil => simp at hmem
  | cons m moves ih =>
      rw [List.flatMap_cons, List.map_append, List.nodup_append] at hnodup
      obtain ⟨-, hrest, hdisjoint⟩ := hnodup
      rw [List.flatMap_cons, List.mem_append] at hmem
      obtain hm | hmoves := hmem
      · -- no later move comes back to the cell
        have hlater : ∀ k', (p, k') ∉ moves.flatMap Move.cells := by
          intro k' hk'
          exact hdisjoint p (List.mem_map_of_mem hm) p
            (List.mem_map_of_mem hk') rfl
        have hput : cell (m.put fill buf imgs) p = buf[k]? :=
          m.cell_put_of_mem fill imgs hm (hbuf m List.mem_cons_self)
        obtain ⟨j, hj, -, rfl⟩ := Move.mem_cells.mp hm
        have hlt : m.buf + j < buf.length := by
          have := hbuf m List.mem_cons_self
          omega
        rw [List.getElem?_eq_getElem hlt] at hput ⊢
        show cell (moves.foldl _ (m.put fill buf imgs)) p = _
        exact cell_foldl_put_of_notMem fill buf hlater hput
      · exact ih _ hrest
          (fun m' hm' => hbuf m' (List.mem_cons_of_mem m hm')) hmoves

end Image

end SysLib
