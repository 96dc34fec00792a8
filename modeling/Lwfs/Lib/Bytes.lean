import Mathlib.Algebra.Group.Int.Defs
import Mathlib.Algebra.Group.Nat.Defs
import Mathlib.Tactic.Common

/-!
Numbers as byte strings of a fixed length, the least significant byte first.
-/

namespace SysLib.Bytes

/-- The `k` low bytes of a number. -/
def ofNat : ℕ → ℕ → List UInt8
  | 0, _ => []
  | k + 1, n => UInt8.ofNat n :: ofNat k (n / 256)

/-- The number that a byte string denotes. -/
def toNat : List UInt8 → ℕ
  | [] => 0
  | b :: bs => b.toNat + 256 * toNat bs

@[simp] theorem length_ofNat (k n : ℕ) : (ofNat k n).length = k := by
  induction k generalizing n with
  | zero => rfl
  | succ k ih => rw [ofNat, List.length_cons, ih]

theorem toNat_ofNat {k n : ℕ} (h : n < 256 ^ k) : toNat (ofNat k n) = n := by
  induction k generalizing n with
  | zero =>
      rw [Nat.pow_zero, Nat.lt_one_iff] at h
      rw [h]
      rfl
  | succ k ih =>
      have hdiv : n / 256 < 256 ^ k := by
        rw [Nat.pow_succ, Nat.mul_comm] at h
        exact Nat.div_lt_of_lt_mul h
      have hlow : (UInt8.ofNat n).toNat = n % 256 := rfl
      rw [ofNat, toNat, ih hdiv, hlow]
      omega

/-- Numbers that fit are told apart by their bytes. -/
theorem ofNat_inj {k m n : ℕ} (hm : m < 256 ^ k) (hn : n < 256 ^ k) :
    ofNat k m = ofNat k n ↔ m = n := by
  refine ⟨fun h => ?_, fun h => by rw [h]⟩
  rw [← toNat_ofNat hm, ← toNat_ofNat hn, h]

theorem toNat_lt (bs : List UInt8) : toNat bs < 256 ^ bs.length := by
  induction bs with
  | nil => exact Nat.one_pos
  | cons b bs ih =>
      have hb : b.toNat < 256 := b.toNat_lt
      rw [toNat, List.length_cons, Nat.pow_succ]
      omega

/-- Byte strings of one length are told apart by their numbers. -/
theorem toNat_inj {as bs : List UInt8} (hlen : as.length = bs.length)
    (h : toNat as = toNat bs) : as = bs := by
  induction as generalizing bs with
  | nil => exact (List.length_eq_zero_iff.mp hlen.symm).symm
  | cons a as ih =>
      obtain _ | ⟨b, bs⟩ := bs
      · cases hlen
      · have ha : a.toNat < 256 := a.toNat_lt
        have hb : b.toNat < 256 := b.toNat_lt
        rw [toNat, toNat] at h
        have hhead : a = b := UInt8.toNat_inj.mp (by omega)
        have htail : as = bs :=
          ih (Nat.succ.inj hlen) (by omega)
        rw [hhead, htail]

/-- The bytes of the number of a byte string. -/
theorem ofNat_toNat (bs : List UInt8) : ofNat bs.length (toNat bs) = bs := by
  refine toNat_inj (length_ofNat _ _) ?_
  exact toNat_ofNat (toNat_lt bs)

end SysLib.Bytes
