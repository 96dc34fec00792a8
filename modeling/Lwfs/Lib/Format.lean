import Mathlib.Algebra.Group.Int.Defs
import Mathlib.Algebra.Group.Nat.Defs
import Mathlib.Data.List.GetD
import Mathlib.Data.List.Nodup
import Mathlib.Tactic.Common

/-!
Integers printed by `printf`.

`formatPadded` is the format `%0<width>d`: a sign if there is one, then the
decimal digits, with zeros between them until the width is reached. The
number can be read back from the text, so the text determines it.

`formatHex` is the format `%0<width>X` for a number of at most that many
hexadecimal digits, and `scanHex` is what `scanf` does for that format.
-/

namespace SysLib

/-- What `printf` makes of an integer under the format `%0<width>d`. -/
def formatPadded (width : ℕ) (n : Int) : List Char :=
  let sign := if n < 0 then ['-'] else []
  let digits := Nat.toDigits 10 n.natAbs
  sign ++ (List.replicate (width - sign.length - digits.length) '0' ++ digits)

/-- Reads back what `formatPadded` has printed. -/
def readDecimal : List Char → Int
  | '-' :: cs => -Nat.ofDigitChars 10 cs 0
  | cs => Nat.ofDigitChars 10 cs 0

theorem isDigit_of_mem_padded {k n : ℕ} {c : Char}
    (h : c ∈ List.replicate k '0' ++ Nat.toDigits 10 n) : c.isDigit := by
  rcases List.mem_append.mp h with h | h
  · rw [List.eq_of_mem_replicate h]
    decide
  · exact Nat.isDigit_of_mem_toDigits (by decide) (by decide) h

theorem ofDigitChars_padded (k n : ℕ) :
    Nat.ofDigitChars 10 (List.replicate k '0' ++ Nat.toDigits 10 n) 0 = n := by
  rw [Nat.ofDigitChars_append, Nat.ofDigitChars_replicate_zero, Nat.mul_zero,
    Nat.ofDigitChars_ten_toDigits]

theorem readDecimal_of_digits {cs : List Char} (h : ∀ c ∈ cs, c.isDigit) :
    readDecimal cs = Nat.ofDigitChars 10 cs 0 := by
  unfold readDecimal
  split
  · next cs =>
    have hminus := h '-' List.mem_cons_self
    exact absurd hminus (by decide)
  · rfl

theorem readDecimal_formatPadded (width : ℕ) (n : Int) :
    readDecimal (formatPadded width n) = n := by
  unfold formatPadded
  split
  · simp only [List.cons_append, List.nil_append, readDecimal,
      ofDigitChars_padded]
    omega
  · rw [List.nil_append, readDecimal_of_digits fun c => isDigit_of_mem_padded,
      ofDigitChars_padded]
    omega

theorem formatPadded_inj {width : ℕ} {m n : Int} :
    formatPadded width m = formatPadded width n ↔ m = n := by
  constructor
  · intro h
    rw [← readDecimal_formatPadded width m, h, readDecimal_formatPadded]
  · rintro rfl
    rfl

/-- Only digits and a minus sign are printed. -/
theorem mem_formatPadded {width : ℕ} {n : Int} {c : Char}
    (h : c ∈ formatPadded width n) : c = '-' ∨ c.isDigit := by
  rcases List.mem_append.mp h with h | h
  · left
    split at h
    · exact List.mem_singleton.mp h
    · exact absurd h List.not_mem_nil
  · exact Or.inr (isDigit_of_mem_padded h)

/-- A number of at most `k` digits is printed in the width, or in its digits
and a sign if those are longer. -/
theorem length_formatPadded_le {width k : ℕ} {n : Int} (hk : 0 < k)
    (hn : n.natAbs < 10 ^ k) :
    (formatPadded width n).length ≤ max width (k + 1) := by
  have hdigits := (Nat.length_toDigits_le_iff (by decide) hk).mpr hn
  unfold formatPadded
  split <;>
    · simp only [List.length_append, List.length_replicate, List.length_cons,
        List.length_nil]
      omega

theorem length_formatPadded (width : ℕ) (n : Int) :
    (formatPadded width n).length =
      max width ((if n < 0 then 1 else 0) +
        (Nat.toDigits 10 n.natAbs).length) := by
  unfold formatPadded
  split <;>
    · simp only [List.length_append, List.length_replicate, List.length_cons,
        List.length_nil]
      omega

/-! ### Hexadecimal numbers -/

/-- The digits of the format `%X`. -/
def hexDigits : List Char :=
  ['0', '1', '2', '3', '4', '5', '6', '7', '8', '9', 'A', 'B', 'C', 'D', 'E',
   'F']

def hexDigit (d : ℕ) : Char := hexDigits.getD d '0'

/-- What `printf` makes of a number of at most `width` digits under the format
`%0<width>X`. -/
def formatHex : ℕ → ℕ → List Char
  | 0, _ => []
  | width + 1, n => formatHex width (n / 16) ++ [hexDigit (n % 16)]

theorem hexDigit_inj {d e : ℕ} (hd : d < 16) (he : e < 16)
    (h : hexDigit d = hexDigit e) : d = e := by
  have hnodup : hexDigits.Nodup := by decide
  rw [hexDigit, hexDigit, List.getD_eq_getElem _ _ hd,
    List.getD_eq_getElem _ _ he] at h
  exact (hnodup.getElem_inj_iff).mp h

@[simp] theorem length_formatHex (width n : ℕ) :
    (formatHex width n).length = width := by
  induction width generalizing n with
  | zero => rfl
  | succ width ih =>
      rw [formatHex, List.length_append, ih, List.length_singleton]

/-- Numbers that fit are told apart by their texts. -/
theorem formatHex_inj {width m n : ℕ} (hm : m < 16 ^ width)
    (hn : n < 16 ^ width) (h : formatHex width m = formatHex width n) :
    m = n := by
  induction width generalizing m n with
  | zero =>
      rw [Nat.pow_zero] at hm hn
      omega
  | succ width ih =>
      rw [Nat.pow_succ] at hm hn
      rw [formatHex, formatHex] at h
      obtain ⟨hinit, hlast⟩ := List.append_inj' h rfl
      have hdiv : m / 16 = n / 16 := ih (by omega) (by omega) hinit
      have hmod : m % 16 = n % 16 :=
        hexDigit_inj (Nat.mod_lt m (by decide)) (Nat.mod_lt n (by decide))
          (List.singleton_inj.mp hlast)
      omega

/-- The value of a hexadecimal digit. -/
def hexValue (c : Char) : Option ℕ :=
  if '0' ≤ c ∧ c ≤ '9' then some (c.toNat - '0'.toNat)
  else if 'a' ≤ c ∧ c ≤ 'f' then some (c.toNat - 'a'.toNat + 10)
  else if 'A' ≤ c ∧ c ≤ 'F' then some (c.toNat - 'A'.toNat + 10)
  else none

/-- Reads at most `width` hexadecimal digits behind those that have been read,
whose value is `n`. -/
def readHex : ℕ → ℕ → List Char → ℕ × List Char
  | 0, n, cs => (n, cs)
  | _ + 1, n, [] => (n, [])
  | width + 1, n, c :: cs =>
      match hexValue c with
      | none => (n, c :: cs)
      | some d => readHex width (16 * n + d) cs

/-- The sign and the prefix that a number may have. They count for the
width. -/
def skipSign : ℕ → List Char → Bool × ℕ × List Char
  | width + 1, '-' :: cs => (true, width, cs)
  | width + 1, '+' :: cs => (false, width, cs)
  | width, cs => (false, width, cs)

def skipPrefix : ℕ → List Char → ℕ × List Char
  | width + 2, '0' :: 'x' :: cs => (width, cs)
  | width + 2, '0' :: 'X' :: cs => (width, cs)
  | width, cs => (width, cs)

/-- What `scanf` reads under the format `%<width>X`, and the text behind it. -/
def scanHex (width : ℕ) (cs : List Char) : Option (ℤ × List Char) :=
  let signed := skipSign width (cs.dropWhile Char.isWhitespace)
  let digits := skipPrefix signed.2.1 signed.2.2
  let number := readHex digits.1 0 digits.2
  if number.2.length = digits.2.length then none
  else some (if signed.1 then -number.1 else number.1, number.2)

theorem hexValue_hexDigit {d : ℕ} (hd : d < 16) :
    hexValue (hexDigit d) = some d := by
  revert d
  decide

/-- The digits that were printed are read back. -/
theorem readHex_formatHex {k n : ℕ} (hn : n < 16 ^ k) (width m : ℕ)
    (cs : List Char) :
    readHex (k + width) m (formatHex k n ++ cs) =
      readHex width (16 ^ k * m + n) cs := by
  induction k generalizing n width cs with
  | zero =>
      rw [Nat.pow_zero, Nat.lt_one_iff] at hn
      simp [formatHex, hn]
  | succ k ih =>
      rw [Nat.pow_succ] at hn
      have hdigit : hexValue (hexDigit (n % 16)) = some (n % 16) :=
        hexValue_hexDigit (Nat.mod_lt n (by decide))
      have hwidth : k + 1 + width = k + (width + 1) := by omega
      rw [hwidth, formatHex, List.append_assoc, ih (by omega)]
      simp only [List.singleton_append, readHex, hdigit]
      congr 1
      rw [Nat.pow_succ]
      have hn := Nat.div_add_mod n 16
      have hassoc : 16 ^ k * 16 * m = 16 * (16 ^ k * m) := by
        rw [Nat.mul_comm (16 ^ k) 16, Nat.mul_assoc]
      omega

theorem mem_formatHex {width n : ℕ} {c : Char} (h : c ∈ formatHex width n) :
    c ∈ hexDigits := by
  induction width generalizing n with
  | zero => exact absurd h List.not_mem_nil
  | succ width ih =>
      rcases List.mem_append.mp h with h | h
      · exact ih h
      · rw [List.mem_singleton.mp h]
        have hlt : n % 16 < hexDigits.length := Nat.mod_lt n (by decide)
        rw [hexDigit, List.getD_eq_getElem _ _ hlt]
        exact List.getElem_mem hlt

theorem skipSign_of_ne {c : Char} (hminus : c ≠ '-') (hplus : c ≠ '+')
    (width : ℕ) (cs : List Char) :
    skipSign width (c :: cs) = (false, width, c :: cs) := by
  unfold skipSign
  split
  · next heq =>
    cases heq
    exact absurd rfl hminus
  · next heq =>
    cases heq
    exact absurd rfl hplus
  · rfl

theorem skipPrefix_of_ne {c d : Char} (hlower : d ≠ 'x') (hupper : d ≠ 'X')
    (width : ℕ) (cs : List Char) :
    skipPrefix width (c :: d :: cs) = (width, c :: d :: cs) := by
  unfold skipPrefix
  split
  · next heq =>
    cases heq
    exact absurd rfl hlower
  · next heq =>
    cases heq
    exact absurd rfl hupper
  · rfl

/-- A number that fits its width is read back, and the rest of the text
stays. -/
theorem scanHex_formatHex {width n : ℕ} (hwidth : 2 ≤ width)
    (hn : n < 16 ^ width) (cs : List Char) :
    scanHex width (formatHex width n ++ cs) = some ((n : ℤ), cs) := by
  have hread := readHex_formatHex hn 0 0 cs
  have hlen := length_formatHex width n
  have hdigits : ∀ c ∈ formatHex width n, c ∈ hexDigits := fun c => mem_formatHex
  -- the text has two digits at least, and neither is part of a prefix
  obtain ⟨c, d, ds, hcs⟩ : ∃ c d ds, formatHex width n = c :: d :: ds := by
    rcases htext : formatHex width n with _ | ⟨c, _ | ⟨d, ds⟩⟩
    · rw [htext, List.length_nil] at hlen
      omega
    · rw [htext, List.length_singleton] at hlen
      omega
    · exact ⟨c, d, ds, rfl⟩
  rw [hcs] at hdigits
  have hc : c ∈ hexDigits := hdigits c (by simp)
  have hd : d ∈ hexDigits := hdigits d (by simp)
  have hspace : ∀ c ∈ hexDigits, c.isWhitespace = false := by
    simp [hexDigits, Char.isWhitespace]
  have hsign : ∀ c ∈ hexDigits, c ≠ '-' ∧ c ≠ '+' := by
    simp [hexDigits]
  have hplain : ∀ d ∈ hexDigits, d ≠ 'x' ∧ d ≠ 'X' := by
    simp [hexDigits]
  have hdrop : (formatHex width n ++ cs).dropWhile Char.isWhitespace =
      formatHex width n ++ cs := by
    rw [hcs, List.cons_append, List.dropWhile_cons_of_neg (by simp [hspace c hc])]
  have hskip : skipSign width (formatHex width n ++ cs) =
      (false, width, formatHex width n ++ cs) := by
    rw [hcs]
    exact skipSign_of_ne (hsign c hc).1 (hsign c hc).2 _ _
  have hstart : skipPrefix width (formatHex width n ++ cs) =
      (width, formatHex width n ++ cs) := by
    rw [hcs]
    exact skipPrefix_of_ne (hplain d hd).1 (hplain d hd).2 _ _
  have hnumber : readHex width 0 (formatHex width n ++ cs) = (n, cs) := by
    rw [Nat.add_zero] at hread
    rw [hread, Nat.mul_zero, Nat.zero_add]
    rfl
  have hpos : width ≠ 0 := by omega
  simp [scanHex, hdrop, hskip, hstart, hnumber, hpos]

end SysLib
