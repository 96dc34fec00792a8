import Lwfs.Lib.Carry
import Lwfs.Types

/-!
Numbers of 64 bits, of the library that makes UUIDs.

`ui64_t` is an array of eight digits, the least significant first. The loops
of the library go over the digits with a carry.
-/

namespace Lwfs.Support

open SysLib

/-- `ui64_t`. -/
abbrev Ui64 := Octets 8

namespace Ui64

/-- The number that the digits denote. -/
def val (x : Ui64) : ℕ := Bytes.toNat x.bytes

theorem val_lt (x : Ui64) : x.val < 2 ^ 64 := by
  have h := Bytes.toNat_lt x.bytes
  rw [x.length_eq] at h
  exact h

/-- The result of a loop with a carry. -/
def ofCarry (c : ℕ) (ds : List ℕ) (h : ds.length = 8) : Ui64 × ℕ :=
  (⟨(Bytes.carry c ds).1, by rw [Bytes.length_carry, h]⟩, (Bytes.carry c ds).2)

theorem val_ofCarry (c : ℕ) (ds : List ℕ) (h : ds.length = 8) :
    (ofCarry c ds h).1.val = (c + Nat.ofDigits 256 ds) % 2 ^ 64 := by
  have hval := Bytes.toNat_carry_fst c ds
  rw [h] at hval
  exact hval

end Ui64

/-- `ui64_zero`. -/
def ui64Zero : Ui64 := Octets.fill 8 0

/-- The digits that the loop of `ui64_n2i` stores. It stops when nothing is
left of the number, and the others are 0. -/
def n2iLoop : ℕ → ℕ → List UInt8
  | 0, _ => []
  | k + 1, n =>
      UInt8.ofNat n ::
        if 0 < n / 256 then n2iLoop k (n / 256) else List.replicate k 0

theorem n2iLoop_eq (k n : ℕ) : n2iLoop k n = Bytes.ofNat k n := by
  have hzero : ∀ k, Bytes.ofNat k 0 = List.replicate k 0 := by
    intro k
    induction k with
    | zero => rfl
    | succ k ih => simp [Bytes.ofNat, List.replicate_succ, ih]
  induction k generalizing n with
  | zero => rfl
  | succ k ih =>
      rw [n2iLoop, Bytes.ofNat]
      split
      · rw [ih]
      · have hn : n / 256 = 0 := by omega
        rw [hn, hzero]

/-- `ui64_n2i`. -/
def ui64N2i (n : ℕ) : Ui64 := ⟨n2iLoop 8 n, by simp [n2iLoop_eq]⟩

/-- `ui64_i2n`, from the most significant digit down. -/
def ui64I2n (x : Ui64) : ℕ := x.bytes.foldr (fun b n => n * 256 + b.toNat) 0

/-- `ui64_add`. -/
def ui64Add (x y : Ui64) : Ui64 × Ui64 :=
  let r := Ui64.ofCarry 0 (List.zipWith (fun a b => a.toNat + b.toNat) x.bytes y.bytes)
    (by simp [x.length_eq, y.length_eq])
  (r.1, ui64N2i r.2)

/-- `ui64_addn`. -/
def ui64Addn (x : Ui64) (y : ℕ) : Ui64 × ℕ :=
  Ui64.ofCarry y (x.bytes.map UInt8.toNat) (by simp [x.length_eq])

/-- `ui64_muln`. -/
def ui64Muln (x : Ui64) (y : ℕ) : Ui64 × ℕ :=
  Ui64.ofCarry 0 (x.bytes.map fun b => b.toNat * y) (by simp [x.length_eq])

/-- The sixteen digits that `ui64_rol` shifts in. It shifts by whole digits and
then, with a carry, by the bits that remain. -/
def rolDigits (x : Ui64) (s : ℕ) : List UInt8 :=
  -- whole digits first
  let zx := List.replicate (s / 8) 0 ++ x.bytes ++ List.replicate (8 - s / 8) 0
  if 0 < s % 8 then (Bytes.carry 0 (zx.map fun b => b.toNat * 2 ^ (s % 8))).1 else zx

theorem length_rolDigits (x : Ui64) {s : ℕ} (hs : s < 64) : (rolDigits x s).length = 16 := by
  have hx := x.length_eq
  rw [rolDigits]
  split <;> simp <;> omega

/-- `ui64_rol`, with what is shifted out. -/
def ui64Rol (x : Ui64) (s : ℕ) : Ui64 × Ui64 :=
  if s = 0 then (x, ui64Zero)
  else if h : s < 64 then
    (⟨(rolDigits x s).take 8, by simp [length_rolDigits x h]⟩,
      ⟨(rolDigits x s).drop 8, by simp [length_rolDigits x h]⟩)
  else if s = 64 then (ui64Zero, x)
  else (ui64Zero, ui64Zero)

/-- The places of the digits and letters in `map`, from `'0'` on. The others
are 36. -/
def s2iMap (c : Char) : ℕ :=
  if '0' ≤ c ∧ c ≤ '9' then c.toNat - '0'.toNat
  else if 'A' ≤ c ∧ c ≤ 'Z' then c.toNat - 'A'.toNat + 10
  else if 'a' ≤ c ∧ c ≤ 'z' then c.toNat - 'a'.toNat + 10
  else 36

/-- The loop of `ui64_s2i` over the digits of the base. It ends where a carry
remains. -/
def s2iLoop (base : ℕ) (z : Ui64) : List Char → Ui64
  | [] => z
  | c :: cs =>
      if s2iMap c < base then
        let product := ui64Muln z base
        if product.2 ≠ 0 then product.1
        else
          let sum := ui64Addn product.1 (s2iMap c)
          if sum.2 ≠ 0 then sum.1 else s2iLoop base sum.1 cs
      else z

/-- `ui64_s2i`. -/
def ui64S2i (str : List Char) (base : ℕ) : Ui64 :=
  if base < 2 ∨ 36 < base then ui64Zero
  else s2iLoop base ui64Zero (str.dropWhile Char.isWhitespace)

/-! ### What the operations compute -/

namespace Ui64

@[simp] theorem val_n2i (n : ℕ) : (ui64N2i n).val = n % 2 ^ 64 := by
  show Bytes.toNat (n2iLoop 8 n) = _
  rw [n2iLoop_eq]
  have h := Bytes.toNat_ofNat_mod 8 n
  exact h

@[simp] theorem i2n_eq_val (x : Ui64) : ui64I2n x = x.val := by
  have h : ∀ bs : List UInt8, bs.foldr (fun b n => n * 256 + b.toNat) 0 = Bytes.toNat bs := by
    intro bs
    induction bs with
    | nil => rfl
    | cons b bs ih =>
        rw [List.foldr_cons, ih, Bytes.toNat]
        omega
  exact h x.bytes

@[simp] theorem val_add (x y : Ui64) : (ui64Add x y).1.val = (x.val + y.val) % 2 ^ 64 := by
  have hlen : x.bytes.length = y.bytes.length := by rw [x.length_eq, y.length_eq]
  rw [ui64Add, val_ofCarry, Bytes.ofDigits_zipWith_add hlen, Nat.zero_add, val, val]

@[simp] theorem val_addn (x : Ui64) (y : ℕ) :
    (ui64Addn x y).1.val = (x.val + y) % 2 ^ 64 := by
  rw [ui64Addn, val_ofCarry, Bytes.ofDigits_map_toNat, Nat.add_comm, val]

@[simp] theorem val_muln (x : Ui64) (y : ℕ) :
    (ui64Muln x y).1.val = x.val * y % 2 ^ 64 := by
  rw [ui64Muln, val_ofCarry, Bytes.ofDigits_map_mul, Nat.zero_add, val]

theorem toNat_rolDigits (x : Ui64) {s : ℕ} (hs : s < 64) :
    Bytes.toNat (rolDigits x s) = x.val * 2 ^ s := by
  have hlen : (List.replicate (s / 8) 0 ++ x.bytes ++
      List.replicate (8 - s / 8) (0 : UInt8)).length = 16 := by
    have hx := x.length_eq
    simp only [List.length_append, List.length_replicate, hx]
    omega
  have hzx : Bytes.toNat (List.replicate (s / 8) 0 ++ x.bytes ++
      List.replicate (8 - s / 8) 0) = x.val * 256 ^ (s / 8) := by
    simp [Bytes.toNat_append, val, Nat.mul_comm]
  have hpow : 2 ^ s = 256 ^ (s / 8) * 2 ^ (s % 8) := by
    have h256 : (256 : ℕ) = 2 ^ 8 := rfl
    rw [h256, ← Nat.pow_mul, ← Nat.pow_add, Nat.div_add_mod]
  rw [rolDigits]
  split
  · have hlt : x.val * 2 ^ s < 256 ^ 16 := by
      calc x.val * 2 ^ s < 2 ^ 64 * 2 ^ 64 :=
            Nat.mul_lt_mul'' x.val_lt (Nat.pow_lt_pow_right (by omega) hs)
        _ = 256 ^ 16 := rfl
    rw [Bytes.toNat_carry_fst, List.length_map, hlen, Bytes.ofDigits_map_mul, hzx,
      Nat.zero_add, Nat.mul_assoc, ← hpow, Nat.mod_eq_of_lt hlt]
  · have hs8 : s % 8 = 0 := by omega
    rw [hzx, hpow, hs8, Nat.pow_zero, Nat.mul_one]

/-- A shift keeps the low bits, and gives those that it shifts out. -/
theorem val_rol (x : Ui64) {s : ℕ} (hs : s < 64) (hpos : 0 < s) :
    (ui64Rol x s).1.val = x.val * 2 ^ s % 2 ^ 64 ∧
      (ui64Rol x s).2.val = x.val * 2 ^ s / 2 ^ 64 := by
  have hlen := length_rolDigits x hs
  have hsplit := Bytes.toNat_split (rolDigits x s) (show 8 ≤ _ by omega)
  rw [toNat_rolDigits x hs] at hsplit
  rw [ui64Rol, if_neg (by omega), dif_pos hs]
  exact hsplit

end Ui64

end Lwfs.Support
