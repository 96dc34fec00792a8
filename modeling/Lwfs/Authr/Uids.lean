import Lwfs.Types
import Lwfs.Lib.Comparator
import Mathlib.Tactic.IntervalCases

/-!
The user-id arrays of the authorization server: the comparator, and the
three routines that add user ids to an access-control list and remove them.

The comparator subtracts 32-bit unsigned words and widens the difference to
a 64-bit `long`, so it never answers with a negative number
(`compareUids_eq`). It is not a strict weak order, and `qsort` may leave the
arrays in any order.
-/

namespace Lwfs.Authr

open SysLib

/-- The word that `memcpy` reads at byte `4 * i` of a user id. -/
def uidWord (u : Uid) (i : ℕ) : UInt32 :=
  UInt32.ofNat ((u.byte (4 * i)).toNat + 2 ^ 8 * (u.byte (4 * i + 1)).toNat +
    2 ^ 16 * (u.byte (4 * i + 2)).toNat + 2 ^ 24 * (u.byte (4 * i + 3)).toNat)

/-- The value of `res` after the loop over the given word positions. The
subtraction is unsigned, and `res` is a `long` of 64 bits. -/
def compareWords (a b : Uid) : List ℕ → Int
  | [] => 0
  | i :: is =>
      let res : Int := (uidWord b i - uidWord a i).toNat
      if res ≠ 0 then res else compareWords a b is

def compareUids (a b : Uid) : Int :=
  let res := compareWords a b [3, 2, 1, 0]
  if 0 < res then 1 else if res < 0 then -1 else 0

/-- The user id that `memset` with `-1` leaves. -/
def infUid : Uid := Octets.fill uuidSize 0xff

/-! ### Removing duplicates -/

/-- The loop of `remove_dups` over the elements after `a`, the last one kept:
the array it leaves and the number of elements it keeps. -/
def markDups (a : Uid) : List Uid → List Uid × ℕ
  | [] => ([], 0)
  | b :: vals =>
      if compareUids a b ≠ 0 then
        let (marked, count) := markDups b vals
        (b :: marked, count + 1)
      else
        let (marked, count) := markDups a vals
        (infUid :: marked, count)

/-- `remove_dups`: the whole array it leaves, and the count it returns. -/
def removeDups (q : Qsort Uid) (vals : List Uid) : List Uid × ℕ :=
  match q.sort compareUids vals with
  | [] => ([], 0)
  | a :: rest =>
      let (marked, count) := markDups a rest
      (q.sort compareUids (a :: marked), count + 1)

/-- The array after its length has been set to the count that `remove_dups`
returns, as both callers do. -/
def dedupUids (q : Qsort Uid) (vals : List Uid) : List Uid :=
  (removeDups q vals).1.take (removeDups q vals).2

/-! ### Adding and removing -/

def addUids (q : Qsort Uid) (orig toadd : List Uid) : List Uid :=
  dedupUids q (orig ++ toadd)

/-- The merge loop of `remove_uids`: what it leaves of `orig`, and how many
elements it has set to infinity. -/
def nullOut : List Uid → List Uid → List Uid × ℕ
  | [], _ => ([], 0)
  | orig, [] => (orig, 0)
  | o :: orig, t :: torm =>
      let compRes := compareUids o t
      if compRes = 0 then
        let (nulled, removed) := nullOut orig torm
        (infUid :: nulled, removed + 1)
      else if compRes < 0 then
        let (nulled, removed) := nullOut orig (t :: torm)
        (o :: nulled, removed)
      else nullOut (o :: orig) torm
  termination_by orig torm => orig.length + torm.length

/-- `remove_uids`, which changes both of its arrays. -/
def removeUids (q : Qsort Uid) (origArray tormArray : List Uid) :
    List Uid × List Uid :=
  let orig := dedupUids q origArray
  let torm := dedupUids q tormArray
  let (nulled, removed) := nullOut orig torm
  ((q.sort compareUids nulled).take (orig.length - removed), torm)

/-! ### The comparator -/

theorem toNat_uidWord (u : Uid) (i : ℕ) :
    (uidWord u i).toNat =
      (u.byte (4 * i)).toNat + 2 ^ 8 * (u.byte (4 * i + 1)).toNat +
        2 ^ 16 * (u.byte (4 * i + 2)).toNat +
        2 ^ 24 * (u.byte (4 * i + 3)).toNat := by
  have h0 := (u.byte (4 * i)).toNat_lt
  have h1 := (u.byte (4 * i + 1)).toNat_lt
  have h2 := (u.byte (4 * i + 2)).toNat_lt
  have h3 := (u.byte (4 * i + 3)).toNat_lt
  unfold uidWord
  rw [UInt32.toNat_ofNat_of_lt']
  simp only [UInt32.size]
  omega

/-- Four equal words make four equal bytes each. -/
theorem byte_eq_of_uidWord_eq {a b : Uid} {i : ℕ}
    (h : uidWord a i = uidWord b i) (k : ℕ) (hk : k < 4) :
    a.byte (4 * i + k) = b.byte (4 * i + k) := by
  have hnat := congrArg UInt32.toNat h
  rw [toNat_uidWord, toNat_uidWord] at hnat
  have ha0 := (a.byte (4 * i)).toNat_lt
  have ha1 := (a.byte (4 * i + 1)).toNat_lt
  have ha2 := (a.byte (4 * i + 2)).toNat_lt
  have hb0 := (b.byte (4 * i)).toNat_lt
  have hb1 := (b.byte (4 * i + 1)).toNat_lt
  have hb2 := (b.byte (4 * i + 2)).toNat_lt
  apply UInt8.toNat_inj.mp
  interval_cases k
  · rw [Nat.add_zero]
    omega
  · omega
  · omega
  · omega

theorem uid_ext {a b : Uid} (h : ∀ i < 4, uidWord a i = uidWord b i) :
    a = b := by
  apply Octets.ext_byte
  intro i hi
  have hi16 : i < 16 := hi
  have hbyte := byte_eq_of_uidWord_eq (h (i / 4) (by omega)) (i % 4)
    (Nat.mod_lt _ (by decide))
  rwa [Nat.div_add_mod] at hbyte

theorem compareWords_nonneg (a b : Uid) (is : List ℕ) :
    0 ≤ compareWords a b is := by
  induction is with
  | nil => exact Int.le_refl 0
  | cons i is ih =>
      simp only [compareWords]
      split
      · exact Int.natCast_nonneg _
      · exact ih

theorem compareWords_eq_zero {a b : Uid} {is : List ℕ} :
    compareWords a b is = 0 ↔ ∀ i ∈ is, uidWord a i = uidWord b i := by
  induction is with
  | nil => simp [compareWords]
  | cons i is ih =>
      have hsub : ((uidWord b i - uidWord a i).toNat : Int) = 0 ↔
          uidWord a i = uidWord b i := by
        have ha := (uidWord a i).toNat_lt
        have hb := (uidWord b i).toNat_lt
        rw [← UInt32.toNat_inj, UInt32.toNat_sub]
        omega
      simp only [compareWords, List.mem_cons, forall_eq_or_imp, ← ih, ← hsub]
      split
      · next h =>
        simp only [ne_eq] at h
        simp only [h, false_and]
      · next h =>
        simp only [ne_eq, not_not] at h
        simp only [h, true_and]

/-- The comparator only tells equal from different. -/
theorem compareUids_eq (a b : Uid) :
    compareUids a b = if a = b then 0 else 1 := by
  have hnonneg := compareWords_nonneg a b [3, 2, 1, 0]
  have hzero : compareWords a b [3, 2, 1, 0] = 0 ↔ a = b := by
    rw [compareWords_eq_zero]
    constructor
    · intro h
      apply uid_ext
      intro i hi
      apply h
      interval_cases i <;> decide
    · rintro rfl i _
      rfl
  unfold compareUids
  by_cases hab : a = b
  · rw [hzero.mpr hab, if_pos hab]
    rfl
  · have hne : compareWords a b [3, 2, 1, 0] ≠ 0 := fun h => hab (hzero.mp h)
    rw [if_pos (by omega), if_neg hab]

theorem compareUids_eq_zero {a b : Uid} : compareUids a b = 0 ↔ a = b := by
  rw [compareUids_eq]
  split <;> simp [*]

theorem compareUids_nonneg (a b : Uid) : 0 ≤ compareUids a b := by
  rw [compareUids_eq]
  split <;> decide

/-! ### The comparator as an order -/

/-- The laws of a total order for the user ids of a set: the comparator
answers zero for equal ids only, turning the arguments round turns the sign
round, and what does not come after does so transitively. -/
structure Orders (s : Set Uid) : Prop where
  zero_iff : ∀ a ∈ s, ∀ b ∈ s, (compareUids a b = 0 ↔ a = b)
  opposite : ∀ a ∈ s, ∀ b ∈ s,
    (compareUids b a).sign = -(compareUids a b).sign
  trans : ∀ a ∈ s, ∀ b ∈ s, ∀ c ∈ s,
    compareUids a b ≤ 0 → compareUids b c ≤ 0 → compareUids a c ≤ 0

/-- The order that the routines below build on, in which what
`remove_dups` and `remove_uids` write over an element they drop is last. -/
structure TotallyOrders (s : Set Uid) : Prop extends Orders s where
  infinity_last : ∀ a ∈ s, a ≠ infUid → compareUids a infUid < 0

theorem sign_compareUids (a b : Uid) :
    (compareUids a b).sign = compareUids a b := by
  rw [compareUids_eq]
  split <;> rfl

/-- Both orders of two different ids get the answer one. -/
theorem opposite_compareUids_iff {a b : Uid} :
    (compareUids b a).sign = -(compareUids a b).sign ↔ a = b := by
  rw [sign_compareUids, sign_compareUids]
  constructor
  · intro h
    have hab := compareUids_nonneg a b
    have hba := compareUids_nonneg b a
    have hzero : compareUids a b = 0 := by omega
    exact compareUids_eq_zero.mp hzero
  · rintro rfl
    have hzero : compareUids a a = 0 := compareUids_eq_zero.mpr rfl
    simp [hzero]

theorem compareUids_trans {a b c : Uid} (hab : compareUids a b ≤ 0)
    (hbc : compareUids b c ≤ 0) : compareUids a c ≤ 0 := by
  have hab0 : compareUids a b = 0 := by
    have := compareUids_nonneg a b
    omega
  have hbc0 : compareUids b c = 0 := by
    have := compareUids_nonneg b c
    omega
  rw [compareUids_eq_zero] at hab0 hbc0
  subst hab0 hbc0
  exact hab

theorem orders_iff_subsingleton {s : Set Uid} :
    Orders s ↔ s.Subsingleton := by
  constructor
  · intro h a ha b hb
    have hopp := h.opposite a ha b hb
    exact opposite_compareUids_iff.mp hopp
  · intro h
    refine ⟨?_, ?_, ?_⟩
    · intro a _ b _
      exact compareUids_eq_zero
    · intro a ha b hb
      exact opposite_compareUids_iff.mpr (h ha hb)
    · intro a _ b _ c _
      exact compareUids_trans

theorem not_compareUids_infUid_neg (a : Uid) : ¬ compareUids a infUid < 0 := by
  have h := compareUids_nonneg a infUid
  omega

/-- The comparator is a total order exactly where it has nothing to order:
on at most one id, and with infinity as the last one only on infinity. -/
theorem totallyOrders_iff (s : Set Uid) :
    (Orders s ↔ s.Subsingleton) ∧ (TotallyOrders s ↔ s ⊆ {infUid}) := by
  refine ⟨orders_iff_subsingleton, ?_⟩
  constructor
  · intro h a ha
    by_contra hne
    have hlast := h.infinity_last a ha hne
    exact not_compareUids_infUid_neg a hlast
  · intro h
    have hsub : s.Subsingleton :=
      Set.subsingleton_singleton.anti h
    refine ⟨orders_iff_subsingleton.mpr hsub, ?_⟩
    intro a ha hne
    exact absurd (h ha) hne

/-- The id of zero bytes compares after infinity, and infinity after it. -/
theorem not_totallyOrders_univ : ¬ TotallyOrders Set.univ := by
  intro h
  have hopp := h.opposite (Octets.fill uuidSize 0) trivial infUid trivial
  revert hopp
  decide +kernel

/-! ### What `remove_dups` leaves

The scan after the first sort compares neighbours only. On an array without
duplicates it changes nothing, and on an array of one repeated element it
keeps the first; in between, what it keeps depends on the order the sort has
chosen. -/

theorem markDups_cons_self (a : Uid) (vals : List Uid) :
    markDups a (a :: vals) =
      (infUid :: (markDups a vals).1, (markDups a vals).2) := by
  simp [markDups, compareUids_eq]

theorem markDups_cons_of_ne {a b : Uid} (h : a ≠ b) (vals : List Uid) :
    markDups a (b :: vals) =
      (b :: (markDups b vals).1, (markDups b vals).2 + 1) := by
  simp [markDups, compareUids_eq, h]

@[simp] theorem length_markDups (a : Uid) (vals : List Uid) :
    (markDups a vals).1.length = vals.length := by
  induction vals generalizing a with
  | nil => rfl
  | cons b vals ih =>
      by_cases hab : a = b
      · subst hab
        simp [markDups_cons_self, ih]
      · simp [markDups_cons_of_ne hab, ih]

theorem markDups_count_le (a : Uid) (vals : List Uid) :
    (markDups a vals).2 ≤ vals.length := by
  induction vals generalizing a with
  | nil => exact Nat.le_refl 0
  | cons b vals ih =>
      by_cases hab : a = b
      · subst hab
        rw [markDups_cons_self]
        exact Nat.le_succ_of_le (ih a)
      · rw [markDups_cons_of_ne hab]
        exact Nat.succ_le_succ (ih b)

theorem markDups_of_nodup {a : Uid} {vals : List Uid}
    (h : (a :: vals).Nodup) : markDups a vals = (vals, vals.length) := by
  induction vals generalizing a with
  | nil => rfl
  | cons b vals ih =>
      obtain ⟨ha, hb⟩ := List.nodup_cons.mp h
      have hab : a ≠ b := fun hab => ha (hab ▸ List.mem_cons_self)
      rw [markDups_cons_of_ne hab, ih hb]
      rfl

theorem markDups_of_forall_eq {a : Uid} {vals : List Uid}
    (h : ∀ b ∈ vals, b = a) :
    markDups a vals = (List.replicate vals.length infUid, 0) := by
  induction vals with
  | nil => rfl
  | cons b vals ih =>
      obtain ⟨rfl, hvals⟩ := List.forall_mem_cons.mp h
      rw [markDups_cons_self, ih hvals]
      rfl

/-- The scan writes nothing but infinity over the elements. -/
theorem mem_of_mem_markDups {a u : Uid} {vals : List Uid}
    (h : u ∈ (markDups a vals).1) : u = infUid ∨ u ∈ vals := by
  induction vals generalizing a with
  | nil => exact absurd h List.not_mem_nil
  | cons b vals ih =>
      by_cases hab : a = b
      · subst hab
        rw [markDups_cons_self] at h
        rcases List.mem_cons.mp h with rfl | h
        · exact Or.inl rfl
        · exact (ih h).imp_right (List.mem_cons_of_mem _)
      · rw [markDups_cons_of_ne hab] at h
        rcases List.mem_cons.mp h with rfl | h
        · exact Or.inr List.mem_cons_self
        · exact (ih h).imp_right (List.mem_cons_of_mem _)

/-- Every element that is not kept becomes infinity. -/
theorem length_le_count_markDups (a : Uid) (vals : List Uid) :
    vals.length ≤ (markDups a vals).1.count infUid + (markDups a vals).2 := by
  induction vals generalizing a with
  | nil => exact Nat.le_refl 0
  | cons b vals ih =>
      by_cases hab : a = b
      · subst hab
        have h := ih a
        rw [markDups_cons_self, List.count_cons_self, List.length_cons]
        omega
      · have h := ih b
        have hle := List.count_le_count_cons (a := infUid) (b := b)
          (l := (markDups b vals).1)
        simp only [markDups_cons_of_ne hab, List.length_cons]
        omega

/-- If infinity is in the array, one more than those is left of it. -/
theorem length_lt_count_markDups {a : Uid} {vals : List Uid}
    (h : infUid ∈ a :: vals) :
    vals.length <
      (a :: (markDups a vals).1).count infUid + (markDups a vals).2 := by
  induction vals generalizing a with
  | nil =>
      rw [List.mem_singleton] at h
      simp [markDups, h]
  | cons b vals ih =>
      by_cases hab : a = b
      · subst hab
        have h' := ih (a := a) (by simpa using h)
        have hcomm : (a :: infUid :: (markDups a vals).1).count infUid =
            (a :: (markDups a vals).1).count infUid + 1 := by
          simp only [List.count_cons, beq_self_eq_true, if_true]
          omega
        rw [markDups_cons_self, List.length_cons, hcomm]
        omega
      · simp only [markDups_cons_of_ne hab, List.length_cons]
        rcases List.mem_cons.mp h with rfl | h
        · have h' := length_le_count_markDups b vals
          have hle := List.count_le_count_cons (a := infUid) (b := b)
            (l := (markDups b vals).1)
          rw [List.count_cons_self]
          omega
        · have h' := ih h
          have hle := List.count_le_count_cons (a := infUid) (b := a)
            (l := b :: (markDups b vals).1)
          omega

end Lwfs.Authr
