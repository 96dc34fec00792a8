import Mathlib.Tactic.Common

/-!
Retrying: a call is made again while it fails in a way that may pass.

The loop counts the calls and stops at a number of them, which it looks at
after a call. So one call is made also where the counter has passed that
number before. The counter is handed on, for loops that share it.
-/

namespace SysLib

namespace Retry

variable {ε α : Type} (again : ε → Prop) (answer : ℕ → Except ε α)

/-- The calls from the number `tries` on fail `k` times in a way that may
pass, and then one returns `a`. -/
def Reaches (tries k : ℕ) (a : α) : Prop :=
  (∀ j < k, ∃ e, answer (tries + j) = .error e ∧ again e) ∧
    answer (tries + k) = .ok a

/-- The call `k` is made: the calls before it fail in a way that may pass, and
the loop may go on for that long. -/
def Made (left tries k : ℕ) : Prop :=
  k ≤ left ∧ ∀ j < k, ∃ e, answer (tries + j) = .error e ∧ again e

variable {again answer}

theorem reaches_zero {tries : ℕ} {a : α} :
    Reaches again answer tries 0 a ↔ answer tries = .ok a := by
  simp [Reaches]

theorem reaches_succ {tries k : ℕ} {a : α} :
    Reaches again answer tries (k + 1) a ↔
      (∃ e, answer tries = .error e ∧ again e) ∧
        Reaches again answer (tries + 1) k a := by
  simp only [Reaches]
  constructor
  · rintro ⟨hfail, hok⟩
    refine ⟨hfail 0 (Nat.succ_pos k), ?_, ?_⟩
    · intro j hj
      have := hfail (j + 1) (by omega)
      rwa [show tries + 1 + j = tries + (j + 1) by omega]
    · rwa [show tries + 1 + k = tries + (k + 1) by omega]
  · rintro ⟨hfirst, hfail, hok⟩
    refine ⟨?_, ?_⟩
    · intro j hj
      cases j with
      | zero => exact hfirst
      | succ j =>
          have := hfail j (by omega)
          rwa [show tries + (j + 1) = tries + 1 + j by omega]
    · rwa [show tries + (k + 1) = tries + 1 + k by omega]

theorem made_zero {left tries : ℕ} : Made again answer left tries 0 := by
  simp [Made]

theorem made_succ {left tries k : ℕ} :
    Made again answer (left + 1) tries (k + 1) ↔
      (∃ e, answer tries = .error e ∧ again e) ∧
        Made again answer left (tries + 1) k := by
  simp only [Made]
  constructor
  · rintro ⟨hk, hfail⟩
    refine ⟨hfail 0 (Nat.succ_pos k), by omega, ?_⟩
    intro j hj
    have := hfail (j + 1) (by omega)
    rwa [show tries + 1 + j = tries + (j + 1) by omega]
  · rintro ⟨hfirst, hk, hfail⟩
    refine ⟨by omega, ?_⟩
    intro j hj
    cases j with
    | zero => exact hfirst
    | succ j =>
        have := hfail j (by omega)
        rwa [show tries + (j + 1) = tries + 1 + j by omega]

/-- The number of failed calls is determined. -/
theorem Reaches.unique {tries k k' : ℕ} {a a' : α}
    (h : Reaches again answer tries k a)
    (h' : Reaches again answer tries k' a') : k = k' := by
  rcases Nat.lt_trichotomy k k' with hlt | heq | hlt
  · obtain ⟨e, he, -⟩ := h'.1 k hlt
    have hok := h.2
    rw [he] at hok
    cases hok
  · exact heq
  · obtain ⟨e, he, -⟩ := h.1 k' hlt
    have hok := h'.2
    rw [he] at hok
    cases hok

variable [DecidablePred again]

variable (again answer) in
/-- The loop with the number of calls made before, and of those that may still
be made after the next one. It returns the result of the last call, and how
many have been made then. -/
def loop : ℕ → ℕ → Except ε α × ℕ
  | 0, tries => (answer tries, tries + 1)
  | left + 1, tries =>
      match answer tries with
      | .ok a => (.ok a, tries + 1)
      | .error e =>
          if again e then loop left (tries + 1) else (.error e, tries + 1)

variable (again answer) in
/-- `do { tries++; … } while (again && tries < max)`. -/
def run (max tries : ℕ) : Except ε α × ℕ :=
  loop again answer (max - (tries + 1)) tries

theorem loop_eq_ok {left tries n : ℕ} {a : α} :
    loop again answer left tries = (.ok a, n) ↔
      ∃ k ≤ left, Reaches again answer tries k a ∧ n = tries + k + 1 := by
  -- on the calls that are left, for any number of tries before
  induction left generalizing tries with
  | zero =>
      rw [loop, Prod.mk.injEq]
      constructor
      · rintro ⟨hok, hn⟩
        exact ⟨0, Nat.le_refl 0, reaches_zero.mpr hok, hn.symm⟩
      · rintro ⟨k, hk, hreach, hn⟩
        obtain rfl : k = 0 := Nat.le_zero.mp hk
        exact ⟨reaches_zero.mp hreach, hn.symm⟩
  | succ left ih =>
      rw [loop]
      cases hanswer : answer tries with
      | ok b =>
          simp only [Prod.mk.injEq, Except.ok.injEq]
          constructor
          · rintro ⟨rfl, hn⟩
            exact ⟨0, Nat.zero_le _, reaches_zero.mpr hanswer, hn.symm⟩
          · rintro ⟨k, -, hreach, hn⟩
            cases k with
            | zero =>
                have hok := reaches_zero.mp hreach
                rw [hanswer, Except.ok.injEq] at hok
                exact ⟨hok, hn.symm⟩
            | succ k =>
                obtain ⟨⟨e, he, -⟩, -⟩ := reaches_succ.mp hreach
                rw [hanswer] at he
                cases he
      | error e =>
          simp only
          by_cases hagain : again e
          · rw [if_pos hagain, ih]
            constructor
            · rintro ⟨k, hk, hreach, hn⟩
              exact ⟨k + 1, by omega,
                reaches_succ.mpr ⟨⟨e, hanswer, hagain⟩, hreach⟩, by omega⟩
            · rintro ⟨k, hk, hreach, hn⟩
              cases k with
              | zero =>
                  have hok := reaches_zero.mp hreach
                  rw [hanswer] at hok
                  cases hok
              | succ k =>
                  exact ⟨k, by omega, (reaches_succ.mp hreach).2, by omega⟩
          · rw [if_neg hagain]
            constructor
            · rintro h
              cases h
            · rintro ⟨k, -, hreach, -⟩
              cases k with
              | zero =>
                  have hok := reaches_zero.mp hreach
                  rw [hanswer] at hok
                  cases hok
              | succ k =>
                  obtain ⟨⟨e', he', hagain'⟩, -⟩ := reaches_succ.mp hreach
                  rw [hanswer, Except.error.injEq] at he'
                  exact absurd (he' ▸ hagain') hagain

/-- The loop returns exactly if one of the calls that it may make does, and
those before it fail in a way that may pass. -/
theorem run_eq_ok {max tries n : ℕ} {a : α} :
    run again answer max tries = (.ok a, n) ↔
      ∃ k ≤ max - (tries + 1), Reaches again answer tries k a ∧
        n = tries + k + 1 :=
  loop_eq_ok

theorem made_loop {left tries k : ℕ} :
    Made again answer left tries k ↔
      tries + k < (loop again answer left tries).2 := by
  induction left generalizing tries k with
  | zero =>
      rw [loop]
      constructor
      · rintro ⟨hk, -⟩
        show tries + k < tries + 1
        omega
      · intro hk
        have hk' : tries + k < tries + 1 := hk
        obtain rfl : k = 0 := by omega
        exact made_zero
  | succ left ih =>
      -- the first call is made, and the others if it fails in a way that may pass
      rw [loop]
      cases hanswer : answer tries with
      | ok a =>
          cases k with
          | zero => simp [made_zero]
          | succ k => simp [made_succ, hanswer]
      | error e =>
          by_cases hagain : again e
          · simp only [if_pos hagain]
            cases k with
            | zero =>
                have hfirst : Made again answer left (tries + 1) 0 := made_zero
                have hnext := ih.mp hfirst
                exact iff_of_true made_zero (by omega)
            | succ k =>
                rw [made_succ, ih, show tries + 1 + k = tries + (k + 1) by omega]
                exact and_iff_right ⟨e, hanswer, hagain⟩
          · simp only [if_neg hagain]
            cases k with
            | zero => simp [made_zero]
            | succ k => simp [made_succ, hanswer, hagain]

/-- The loop returns with the number of the last call that is made. -/
theorem made_run {max tries k : ℕ} :
    Made again answer (max - (tries + 1)) tries k ↔
      tries + k < (run again answer max tries).2 :=
  made_loop

end Retry

end SysLib
