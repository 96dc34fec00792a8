import Mathlib.Tactic.Common
import Mathlib.Data.List.TakeWhile

/-!
Strings in memory: an array of characters holds the string that ends before
its first zero, and the copying routines of the C library write over as many
characters as they are told to, whether the array has room for them or not.

A routine that would leave its array has no result here.
-/

namespace SysLib.CString

/-- The zero that ends a string. -/
def nul : Char := Char.ofNat 0

/-- The string that an array holds. Without a zero in the array it goes on
behind the array. -/
def stringAt (buf : List Char) : Option (List Char) :=
  if nul ∈ buf then some (buf.takeWhile fun c => c ≠ nul) else none

/-- `strncpy`: the string, cut off or filled up with zeros. -/
def strncpy (dst src : List Char) (n : ℕ) : Option (List Char) :=
  if n ≤ dst.length then
    some (src.take n ++ List.replicate (n - src.length) nul ++ dst.drop n)
  else none

/-- An assignment to one character. -/
def store (buf : List Char) (i : Int) (c : Char) : Option (List Char) :=
  if 0 ≤ i ∧ i.toNat < buf.length then some (buf.set i.toNat c) else none

/-- `rindex`: where a character stands for the last time. -/
def rindex : List Char → Char → Option ℕ
  | [], _ => none
  | x :: xs, c =>
      match rindex xs c with
      | some i => some (i + 1)
      | none => if x = c then some 0 else none

/-! ### Laws -/

theorem stringAt_append_nul {s : List Char} (h : nul ∉ s) (rest : List Char) :
    stringAt (s ++ nul :: rest) = some s := by
  have hmem : nul ∈ s ++ nul :: rest := by simp
  have hs : s.takeWhile (fun c => c ≠ nul) = s := by
    rw [List.takeWhile_eq_self_iff]
    intro c hc
    have hne : c ≠ nul := fun heq => h (heq ▸ hc)
    simp [hne]
  rw [stringAt, if_pos hmem, List.takeWhile_append_of_pos]
  · simp
  · intro c hc
    have hne : c ≠ nul := fun heq => h (heq ▸ hc)
    simp [hne]

theorem strncpy_of_lt {dst src : List Char} {n : ℕ} (hfit : n ≤ dst.length)
    (hlt : src.length < n) :
    strncpy dst src n = some (src ++ nul ::
      (List.replicate (n - src.length - 1) nul ++ dst.drop n)) := by
  have hzeros : n - src.length = (n - src.length - 1) + 1 := by omega
  rw [strncpy, if_pos hfit, List.take_of_length_le (by omega)]
  conv_lhs => rw [hzeros]
  rw [List.replicate_succ]
  simp

theorem strncpy_of_le {dst src : List Char} {n : ℕ} (hfit : n ≤ dst.length)
    (hle : n ≤ src.length) :
    strncpy dst src n = some (src.take n ++ dst.drop n) := by
  have hzeros : n - src.length = 0 := by omega
  rw [strncpy, if_pos hfit, hzeros]
  simp

theorem strncpy_of_length_lt {dst : List Char} (src : List Char) {n : ℕ}
    (h : dst.length < n) : strncpy dst src n = none :=
  if_neg (by omega)

theorem store_natCast {buf : List Char} {i : ℕ} (h : i < buf.length)
    (c : Char) : store buf i c = some (buf.set i c) := by
  simp [store, h]

theorem rindex_eq_none {s : List Char} {c : Char} :
    rindex s c = none ↔ c ∉ s := by
  induction s with
  | nil => simp [rindex]
  | cons x xs ih =>
      cases hxs : rindex xs c with
      | none =>
          have hc := ih.mp hxs
          simp only [rindex, hxs, List.mem_cons, hc, or_false]
          split
          · next h => simp [h]
          · next h => simpa using fun heq : c = x => h heq.symm
      | some i =>
          have hc : c ∈ xs := by
            by_contra hnot
            rw [ih.mpr hnot] at hxs
            cases hxs
          simp [rindex, hxs, hc]

/-- What stands behind the last occurrence has none. -/
theorem rindex_append_cons (s : List Char) {t : List Char} {c : Char}
    (h : c ∉ t) : rindex (s ++ c :: t) c = some s.length := by
  induction s with
  | nil =>
      have ht := rindex_eq_none.mpr h
      simp [rindex, ht]
  | cons x xs ih => simp [rindex, ih]

end SysLib.CString
