import Mathlib.Algebra.Group.Int.Defs
import Mathlib.Algebra.Group.Nat.Defs
import Mathlib.Data.List.Sort

/-!
Sorting and searching through a three-way comparator.

The C library's `qsort` and `bsearch` know the elements only through the sign
of a comparator. Of `qsort` the standard promises a permutation of the input,
and a sorted one when the comparator is consistent; nothing is promised about
the order otherwise, so a sort is a parameter here that carries these two
facts. `bsearch` is the halving search, which follows the sign wherever it
leads: `bsearch_isSome_of_nonneg` says which positions it looks at when the
comparator never sends it to the left.
-/

namespace SysLib

variable {α : Type*}

/-- The signs of a comparator come from a total preorder; equivalently, its
negative pairs form a strict weak order. -/
structure StrictWeak (compar : α → α → Int) : Prop where
  swap : ∀ a b, compar a b ≤ 0 ↔ 0 ≤ compar b a
  trans : ∀ a b c, compar a b ≤ 0 → compar b c ≤ 0 → compar a c ≤ 0

/-- A sort as the C standard describes it. -/
structure Qsort (α : Type*) where
  /-- The list in the order the sort leaves it in. -/
  sort : (α → α → Int) → List α → List α
  perm : ∀ compar l, (sort compar l).Perm l
  sorted : ∀ compar l, StrictWeak compar →
    (sort compar l).Pairwise fun a b => compar a b ≤ 0

namespace Qsort

variable (q : Qsort α) (compar : α → α → Int) (l : List α)

@[simp] theorem length_sort : (q.sort compar l).length = l.length :=
  (q.perm compar l).length_eq

@[simp] theorem mem_sort {a : α} : a ∈ q.sort compar l ↔ a ∈ l :=
  (q.perm compar l).mem_iff

@[simp] theorem nodup_sort : (q.sort compar l).Nodup ↔ l.Nodup :=
  (q.perm compar l).nodup_iff

end Qsort

theorem StrictWeak.total {compar : α → α → Int} (h : StrictWeak compar)
    (a b : α) : compar a b ≤ 0 ∨ compar b a ≤ 0 := by
  have hab := h.swap a b
  omega

/-- Insertion sort, the sort used wherever a run is evaluated. -/
def Qsort.insertion (α : Type*) : Qsort α where
  sort compar := List.insertionSort fun a b => compar a b ≤ 0
  perm _ l := List.perm_insertionSort _ l
  sorted compar l h := by
    have : Std.Total fun a b => compar a b ≤ 0 := ⟨h.total⟩
    have : IsTrans α fun a b => compar a b ≤ 0 := ⟨h.trans⟩
    exact List.pairwise_insertionSort _ l

/-! ### The halving search -/

/-- The loop of `bsearch` over the positions from `l` up to `u`. -/
def bsearchLoop (key : α) (base : List α) (compar : α → α → Int) :
    ℕ → ℕ → ℕ → Option ℕ
  | 0, _, _ => none
  | fuel + 1, l, u =>
      if l < u then
        let idx := (l + u) / 2
        match base[idx]? with
        | none => none
        | some a =>
            if compar key a < 0 then bsearchLoop key base compar fuel l idx
            else if 0 < compar key a then
              bsearchLoop key base compar fuel (idx + 1) u
            else some idx
      else none

/-- The position at which the halving search finds an element that compares
equal to `key`, if it finds one. -/
def bsearch (key : α) (base : List α) (compar : α → α → Int) : Option ℕ :=
  bsearchLoop key base compar base.length 0 base.length

/-- A position that the search looks at, over the positions from `l` up to
`n`, when it is sent to the right every time before. -/
def ProbedFrom (l n i : ℕ) : Prop :=
  l ≤ i ∧ i < n ∧ ∃ j, i = n - (n - l + 1) / 2 ^ (j + 1)

/-- A position of a list of length `n` that the search looks at when it is
never sent to the left: the halves are counted from the end of the list. -/
def Probed (n i : ℕ) : Prop :=
  i < n ∧ ∃ j, i = n - (n + 1) / 2 ^ (j + 1)

theorem probedFrom_middle {l n : ℕ} (h : l < n) :
    ProbedFrom l n ((l + n) / 2) := by
  refine ⟨by omega, by omega, 0, ?_⟩
  simp only [Nat.zero_add, Nat.pow_one]
  omega

/-- After the middle, the search goes on with the upper half. -/
theorem probedFrom_iff {l n i : ℕ} (h : l < n) :
    ProbedFrom l n i ↔
      i = (l + n) / 2 ∨ ProbedFrom ((l + n) / 2 + 1) n i := by
  have hhalf : (n - l + 1) / 2 = n - ((l + n) / 2 + 1) + 1 := by omega
  have hnext : ∀ j, (n - l + 1) / 2 ^ (j + 1 + 1) =
      (n - ((l + n) / 2 + 1) + 1) / 2 ^ (j + 1) := by
    intro j
    rw [Nat.pow_succ', ← Nat.div_div_eq_div_mul, hhalf]
  constructor
  · rintro ⟨hl, hn, j, hj⟩
    cases j with
    | zero =>
        left
        simp only [Nat.zero_add, Nat.pow_one] at hj
        omega
    | succ j =>
        right
        have hle : (n - ((l + n) / 2 + 1) + 1) / 2 ^ (j + 1) ≤
            (n - ((l + n) / 2 + 1) + 1) / 2 := by
          rw [Nat.pow_succ', ← Nat.div_div_eq_div_mul]
          exact Nat.div_le_self _ _
        rw [hnext] at hj
        exact ⟨by omega, hn, j, hj⟩
  · rintro (rfl | ⟨hl, hn, j, hj⟩)
    · exact probedFrom_middle h
    · exact ⟨by omega, hn, j + 1, by rw [hnext, hj]⟩

/-- When the comparator is never negative at `key`, the loop finds `key`
exactly if an element that compares equal stands at a probed position. -/
theorem bsearchLoop_isSome_of_nonneg {key : α} {base : List α}
    {compar : α → α → Int} (hcmp : ∀ a ∈ base, 0 ≤ compar key a) (fuel l : ℕ)
    (hfuel : base.length - l ≤ fuel) :
    (bsearchLoop key base compar fuel l base.length).isSome ↔
      ∃ i a, ProbedFrom l base.length i ∧ base[i]? = some a ∧
        compar key a = 0 := by
  induction fuel generalizing l with
  | zero =>
      simp only [bsearchLoop, Option.isSome_none, Bool.false_eq_true, false_iff]
      rintro ⟨i, a, ⟨hl, hn, _⟩, _⟩
      omega
  | succ fuel ih =>
      by_cases hl : l < base.length
      · have hidx : (l + base.length) / 2 < base.length := by omega
        have hget := List.getElem?_eq_getElem hidx
        have hpos := hcmp _ (List.getElem_mem hidx)
        simp only [bsearchLoop, if_pos hl, hget, probedFrom_iff hl]
        rw [if_neg (by omega)]
        split
        · next hgt =>
          -- The middle is not equal, so the search answers for the upper half.
          rw [ih _ (by omega)]
          constructor
          · rintro ⟨i, a, hi, ha, hz⟩
            exact ⟨i, a, Or.inr hi, ha, hz⟩
          · rintro ⟨i, a, rfl | hi, ha, hz⟩
            · rw [hget, Option.some.injEq] at ha
              subst ha
              omega
            · exact ⟨i, a, hi, ha, hz⟩
        · next hgt =>
          simp only [Option.isSome_some, true_iff]
          exact ⟨_, _, Or.inl rfl, hget, by omega⟩
      · simp only [bsearchLoop, if_neg hl, Option.isSome_none,
          Bool.false_eq_true, false_iff]
        rintro ⟨i, a, ⟨hl', hn, _⟩, _⟩
        omega

/-- A search that is never sent to the left finds `key` exactly if it stands
at one of the positions `n - ⌊(n + 1) / 2 ^ j⌋` of the list. -/
theorem bsearch_isSome_of_nonneg {key : α} {base : List α}
    {compar : α → α → Int} (hcmp : ∀ a ∈ base, 0 ≤ compar key a) :
    (bsearch key base compar).isSome ↔
      ∃ i a, Probed base.length i ∧ base[i]? = some a ∧
        compar key a = 0 := by
  have h := bsearchLoop_isSome_of_nonneg hcmp base.length 0 (by omega)
  simpa only [bsearch, ProbedFrom, Probed, Nat.zero_le, true_and,
    Nat.sub_zero] using h

end SysLib
