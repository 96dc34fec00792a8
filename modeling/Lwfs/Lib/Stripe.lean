import Mathlib.Data.Nat.Init
import Lwfs.Lib.Image

/-!
Striping: a sequence of positions dealt out in chunks to several columns.

Position `x` of the sequence lies in chunk `x / chunk`, the chunks go to the
columns in turn, and each column holds its chunks one after the other. A range
of the sequence is cut into moves, each within a chunk, and the moves together
visit the place of every position of the range once and in order.
-/

namespace SysLib

/-- The size of a chunk and the number of columns. -/
structure Stripe where
  chunk : ℕ
  width : ℕ
  chunk_pos : 0 < chunk
  width_pos : 0 < width

namespace Stripe

variable (s : Stripe)

/-- The column that a position of the sequence lies in, and the position in
that column. -/
def locate (x : ℕ) : ℕ × ℕ :=
  (x / s.chunk % s.width, x / s.chunk / s.width * s.chunk + x % s.chunk)

/-- The position of the sequence that lies at a place. -/
def position (p : ℕ × ℕ) : ℕ :=
  (p.2 / s.chunk * s.width + p.1) * s.chunk + p.2 % s.chunk

theorem locate_fst_lt (x : ℕ) : (s.locate x).1 < s.width :=
  Nat.mod_lt _ s.width_pos

theorem locate_snd_div (x : ℕ) :
    (s.locate x).2 / s.chunk = x / s.chunk / s.width := by
  show (x / s.chunk / s.width * s.chunk + x % s.chunk) / s.chunk = _
  rw [Nat.add_comm, Nat.add_mul_div_right _ _ s.chunk_pos,
    Nat.div_eq_of_lt (Nat.mod_lt x s.chunk_pos), Nat.zero_add]

theorem locate_snd_mod (x : ℕ) : (s.locate x).2 % s.chunk = x % s.chunk := by
  show (x / s.chunk / s.width * s.chunk + x % s.chunk) % s.chunk = _
  rw [Nat.add_comm, Nat.add_mul_mod_self_right, Nat.mod_mod]

/-- A position can be recovered from its place. -/
theorem position_locate (x : ℕ) : s.position (s.locate x) = x := by
  have hchunk : x / s.chunk / s.width * s.width + (s.locate x).1 =
      x / s.chunk := Nat.div_add_mod' _ _
  rw [position, locate_snd_div, locate_snd_mod, hchunk]
  exact Nat.div_add_mod' x s.chunk

theorem locate_injective : Function.Injective s.locate :=
  Function.LeftInverse.injective s.position_locate

/-- Within a chunk, a step in the sequence is a step in the column. -/
theorem locate_add {x k : ℕ} (h : x % s.chunk + k < s.chunk) :
    s.locate (x + k) = ((s.locate x).1, (s.locate x).2 + k) := by
  have hdiv : (x + k) / s.chunk = x / s.chunk := by
    rw [Nat.add_div s.chunk_pos, Nat.mod_eq_of_lt (by omega : k < s.chunk),
      if_neg (by omega), Nat.div_eq_of_lt (by omega : k < s.chunk)]
    rfl
  have hmod : (x + k) % s.chunk = x % s.chunk + k := by
    rw [Nat.add_mod, Nat.mod_eq_of_lt (by omega : k < s.chunk),
      Nat.mod_eq_of_lt h]
  simp only [locate, hdiv, hmod, Nat.add_assoc]

theorem position_lt {i a b : ℕ} (hi : i < s.width) (h : a < b) :
    s.position (i, a) < s.position (i, b) := by
  have ha := Nat.div_add_mod' a s.chunk
  have hb := Nat.div_add_mod' b s.chunk
  have hamod := Nat.mod_lt a s.chunk_pos
  simp only [position]
  rcases Nat.lt_or_eq_of_le (Nat.div_le_div_right (c := s.chunk)
    (Nat.le_of_lt h)) with hlt | heq
  · have hrow : a / s.chunk * s.width + i + 1 ≤ b / s.chunk * s.width + i := by
      have := Nat.mul_le_mul_right s.width (Nat.succ_le_of_lt hlt)
      rw [Nat.succ_mul] at this
      have := s.width_pos
      omega
    have hchunks := Nat.mul_le_mul_right s.chunk hrow
    rw [Nat.succ_mul] at hchunks
    omega
  · rw [heq] at ha ⊢
    omega

/-- Within a column, the order is that of the sequence. -/
theorem locate_snd_le_iff {x y : ℕ}
    (h : (s.locate y).1 = (s.locate x).1) :
    (s.locate y).2 ≤ (s.locate x).2 ↔ y ≤ x := by
  have hx : s.position ((s.locate x).1, (s.locate x).2) = x :=
    s.position_locate x
  have hy : s.position ((s.locate y).1, (s.locate y).2) = y :=
    s.position_locate y
  have hcolumn := s.locate_fst_lt x
  rw [h] at hy
  constructor
  · intro hle
    rcases Nat.lt_or_eq_of_le hle with hlt | heq
    · have := s.position_lt hcolumn hlt
      omega
    · rw [heq, hx] at hy
      omega
  · intro hle
    by_contra hnot
    have := s.position_lt hcolumn (Nat.lt_of_not_le hnot)
    omega

theorem locate_position {i a : ℕ} (hi : i < s.width) :
    s.locate (s.position (i, a)) = (i, a) := by
  have hmod := Nat.mod_lt a s.chunk_pos
  have hdiv : s.position (i, a) / s.chunk = a / s.chunk * s.width + i := by
    rw [position, Nat.add_comm, Nat.add_mul_div_right _ _ s.chunk_pos,
      Nat.div_eq_of_lt hmod, Nat.zero_add]
  have hrest : s.position (i, a) % s.chunk = a % s.chunk := by
    rw [position, Nat.add_comm, Nat.add_mul_mod_self_right, Nat.mod_mod]
  have hrow : (a / s.chunk * s.width + i) / s.width = a / s.chunk := by
    rw [Nat.add_comm, Nat.add_mul_div_right _ _ s.width_pos,
      Nat.div_eq_of_lt hi, Nat.zero_add]
  have hcolumn : (a / s.chunk * s.width + i) % s.width = i := by
    rw [Nat.add_comm, Nat.add_mul_mod_self_right, Nat.mod_eq_of_lt hi]
  rw [locate, hdiv, hrest, hrow, hcolumn, Nat.div_add_mod']

/-! ## Cutting a range of the sequence into moves -/

/-- The places of `count` positions from `x` on, with the positions of a
buffer from `buf` on that go with them. -/
def places (x buf count : ℕ) : List ((ℕ × ℕ) × ℕ) :=
  (List.range count).map fun j => (s.locate (x + j), buf + j)

theorem places_add (x buf m n : ℕ) :
    s.places x buf (m + n) =
      s.places x buf m ++ s.places (x + m) (buf + m) n := by
  simp only [places, List.range_add, List.map_append, List.map_map]
  congr 1
  apply List.map_congr_left
  intro j _
  simp only [Function.comp_apply, Nat.add_assoc]

theorem mem_places {x buf count : ℕ} {p : ℕ × ℕ} {k : ℕ} :
    (p, k) ∈ s.places x buf count ↔
      ∃ j < count, p = s.locate (x + j) ∧ k = buf + j := by
  simp only [places, List.mem_map, List.mem_range, Prod.mk.injEq]
  constructor
  · rintro ⟨j, hj, hp, hk⟩
    exact ⟨j, hj, hp.symm, hk.symm⟩
  · rintro ⟨j, hj, hp, hk⟩
    exact ⟨j, hj, hp.symm, hk.symm⟩

theorem nodup_places_fst (x buf count : ℕ) :
    ((s.places x buf count).map Prod.fst).Nodup := by
  rw [places, List.map_map]
  apply List.Nodup.map _ List.nodup_range
  intro i j hij
  have := s.locate_injective hij
  omega

theorem nodup_places_snd (x buf count : ℕ) :
    ((s.places x buf count).map Prod.snd).Nodup := by
  rw [places, List.map_map]
  apply List.Nodup.map _ List.nodup_range
  intro i j hij
  simp only [Function.comp_apply] at hij
  omega

/-- A list of moves that together move the `count` positions from `x` on, in
order, to or from a buffer from `buf` on, and none of which crosses the end of
a chunk. -/
structure Cut (x buf count : ℕ) (moves : List (Image.Move ℕ)) : Prop where
  cells : moves.flatMap Image.Move.cells = s.places x buf count
  chunk : ∀ m ∈ moves, m.off % s.chunk + m.count ≤ s.chunk
  buffer : ∀ m ∈ moves, m.buf + m.count ≤ buf + count

/-- The move of a run of positions within one chunk. -/
def moveAt (x buf count : ℕ) : Image.Move ℕ :=
  ⟨(s.locate x).1, (s.locate x).2, buf, count⟩

theorem cells_moveAt {x count : ℕ} (buf : ℕ)
    (h : x % s.chunk + count ≤ s.chunk) :
    (s.moveAt x buf count).cells = s.places x buf count := by
  apply List.map_congr_left
  intro j hj
  have hj : j < count := List.mem_range.mp hj
  rw [s.locate_add (by omega)]
  rfl

theorem cut_nil (x buf : ℕ) : s.Cut x buf 0 [] where
  cells := rfl
  chunk := by simp
  buffer := by simp

theorem cut_cons {x buf m n : ℕ} {moves : List (Image.Move ℕ)}
    (h : x % s.chunk + m ≤ s.chunk)
    (hrest : s.Cut (x + m) (buf + m) n moves) :
    s.Cut x buf (m + n) (s.moveAt x buf m :: moves) where
  cells := by
    rw [List.flatMap_cons, s.cells_moveAt buf h, hrest.cells, places_add]
  chunk := by
    intro m' hm'
    obtain rfl | hm' := List.mem_cons.mp hm'
    · show (s.locate x).2 % s.chunk + m ≤ s.chunk
      rw [locate_snd_mod]
      exact h
    · exact hrest.chunk m' hm'
  buffer := by
    intro m' hm'
    obtain rfl | hm' := List.mem_cons.mp hm'
    · show buf + m ≤ buf + (m + n)
      omega
    · have := hrest.buffer m' hm'
      omega

end Stripe

end SysLib
