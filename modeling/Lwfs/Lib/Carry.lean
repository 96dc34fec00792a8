import Lwfs.Lib.Bytes
import Mathlib.Data.Nat.Digits.Defs
import Mathlib.Tactic.Ring

/-!
Arithmetic on byte strings, with a carry.

The pass goes over the digits of a result, the least significant first. What
does not fit in a byte is carried to the next one.
-/

namespace SysLib.Bytes

/-- The bytes of a sum whose digits may be beyond a byte, and the last carry. -/
def carry : ℕ → List ℕ → List UInt8 × ℕ
  | c, [] => ([], c)
  | c, d :: ds =>
      let rest := carry ((c + d) / 256) ds
      (UInt8.ofNat (c + d) :: rest.1, rest.2)

@[simp] theorem length_carry (c : ℕ) (ds : List ℕ) : (carry c ds).1.length = ds.length := by
  induction ds generalizing c with
  | nil => rfl
  | cons d ds ih => simp [carry, ih]

/-- Nothing is lost in the pass. -/
theorem toNat_carry (c : ℕ) (ds : List ℕ) :
    toNat (carry c ds).1 + 256 ^ ds.length * (carry c ds).2 = c + Nat.ofDigits 256 ds := by
  induction ds generalizing c with
  | nil => simp [carry, toNat]
  | cons d ds ih =>
      have hrest := ih ((c + d) / 256)
      have hlow : (UInt8.ofNat (c + d)).toNat = (c + d) % 256 := rfl
      rw [carry, toNat, hlow, Nat.ofDigits_cons, List.length_cons, Nat.pow_succ]
      calc (c + d) % 256 + 256 * toNat (carry ((c + d) / 256) ds).1 +
            256 ^ ds.length * 256 * (carry ((c + d) / 256) ds).2
          = (c + d) % 256 + 256 * (toNat (carry ((c + d) / 256) ds).1 +
              256 ^ ds.length * (carry ((c + d) / 256) ds).2) := by ring
        _ = (c + d) % 256 + 256 * ((c + d) / 256 + Nat.ofDigits 256 ds) := by rw [hrest]
        _ = c + (d + 256 * Nat.ofDigits 256 ds) := by omega

/-- The bytes are those of the sum, as far as they go. -/
theorem toNat_carry_fst (c : ℕ) (ds : List ℕ) :
    toNat (carry c ds).1 = (c + Nat.ofDigits 256 ds) % 256 ^ ds.length := by
  have hlt := toNat_lt (carry c ds).1
  rw [length_carry] at hlt
  rw [← toNat_carry, Nat.add_mul_mod_self_left, Nat.mod_eq_of_lt hlt]

theorem ofDigits_map_toNat (bs : List UInt8) :
    Nat.ofDigits 256 (bs.map UInt8.toNat) = toNat bs := by
  induction bs with
  | nil => rfl
  | cons b bs ih => rw [List.map_cons, Nat.ofDigits_cons, ih, toNat]

theorem ofDigits_map_mul (bs : List UInt8) (y : ℕ) :
    Nat.ofDigits 256 (bs.map fun b => b.toNat * y) = toNat bs * y := by
  induction bs with
  | nil => simp [toNat]
  | cons b bs ih =>
      rw [List.map_cons, Nat.ofDigits_cons, ih, toNat]
      ring

theorem ofDigits_zipWith_add {as bs : List UInt8} (h : as.length = bs.length) :
    Nat.ofDigits 256 (List.zipWith (fun a b => a.toNat + b.toNat) as bs) =
      toNat as + toNat bs := by
  induction as generalizing bs with
  | nil => rw [List.length_eq_zero_iff.mp h.symm]; rfl
  | cons a as ih =>
      obtain _ | ⟨b, bs⟩ := bs
      · cases h
      · rw [List.zipWith_cons_cons, Nat.ofDigits_cons, ih (Nat.succ.inj h), toNat, toNat]
        ring

theorem toNat_append (as bs : List UInt8) :
    toNat (as ++ bs) = toNat as + 256 ^ as.length * toNat bs := by
  induction as with
  | nil => simp [toNat]
  | cons a as ih =>
      rw [List.cons_append, toNat, ih, toNat, List.length_cons, Nat.pow_succ]
      ring

@[simp] theorem toNat_replicate_zero (k : ℕ) : toNat (List.replicate k 0) = 0 := by
  induction k with
  | zero => rfl
  | succ k ih => simp [List.replicate_succ, toNat, ih]

theorem toNat_ofNat_mod (k n : ℕ) : toNat (ofNat k n) = n % 256 ^ k := by
  induction k generalizing n with
  | zero => simp [ofNat, toNat, Nat.mod_one]
  | succ k ih =>
      have hlow : (UInt8.ofNat n).toNat = n % 256 := rfl
      rw [ofNat, toNat, ih, hlow, Nat.pow_succ', Nat.mod_mul]

/-- The low bytes are the remainder, and the others the quotient. -/
theorem toNat_split (bs : List UInt8) {k : ℕ} (hk : k ≤ bs.length) :
    toNat (bs.take k) = toNat bs % 256 ^ k ∧ toNat (bs.drop k) = toNat bs / 256 ^ k := by
  have hlen : (bs.take k).length = k := by simpa using hk
  have hlt := toNat_lt (bs.take k)
  have hsplit := toNat_append (bs.take k) (bs.drop k)
  rw [List.take_append_drop, hlen] at hsplit
  rw [hlen] at hlt
  rw [hsplit, Nat.add_mul_mod_self_left, Nat.mod_eq_of_lt hlt,
    Nat.add_mul_div_left _ _ (by positivity), Nat.div_eq_of_lt hlt, Nat.zero_add]
  exact ⟨rfl, rfl⟩

end SysLib.Bytes
